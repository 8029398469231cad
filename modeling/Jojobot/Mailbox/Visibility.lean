import Jojobot.Library.Climb
import Jojobot.Mailbox

namespace Mailbox
open Library Std Memory Testimony

-- The caller and chart of one visibility decision.
structure VisibleBoxes where
  caller : Option EntityId := none
  privateBoxes : List Text := []
  botBoxes : List Text := []
  allowed : List Text := []
  readsEveryBotBox : Bool := false
  above : List Text := []
deriving DecidableEq, Repr

inductive MailScope where
  | everyBoxBut (but : List Text)
  | boxes (read : List Text) (author : Option Text) (authorBoxes : List Text)
deriving DecidableEq, Repr

inductive MessageVisibility where
  | readable | receipt | withheld
deriving DecidableEq, Repr

def VisibleBoxes.mailScope (seen : VisibleBoxes) : MailScope :=
  if seen.readsEveryBotBox then .everyBoxBut seen.privateBoxes else .boxes seen.allowed seen.caller seen.botBoxes

def VisibleBoxes.message (seen : VisibleBoxes) (mailbox : Text) (sender : Option Text) : MessageVisibility :=
  if seen.privateBoxes.contains mailbox then
    if seen.readsEveryBotBox || seen.caller.any (sender = some ·) then .receipt else .withheld
  else if seen.readsEveryBotBox then .readable
  else match seen.caller with
    | none => .withheld
    | some caller =>
      let authored := sender = some caller
      if !seen.botBoxes.contains mailbox then if authored then .receipt else .withheld
      else if authored || seen.allowed.contains mailbox then .readable
      else .withheld

-- Whether the scope admits a message of this box and sender.
def MailScope.admits (scope : MailScope) (mailbox : Text) (sender : Text) : Bool :=
  match scope with
  | .everyBoxBut but => !but.contains mailbox
  | .boxes read author authorBoxes => read.contains mailbox || (author = some sender && authorBoxes.contains mailbox)

-- The boxes a scope reads whoever wrote the mail in them.
def MailScope.reads : MailScope → List Text
  | .everyBoxBut _ => []
  | .boxes read _ _ => read

variable (loaded : List Text)

-- The bot a bot's walk goes on to.
def botAbove (reportsTo : Fields) (at' : EntityId) : Option EntityId :=
  ((reportsTo[at']?).bind (Guarded.managerIn loaded)).filter fun manager => kindOf loaded manager = some BOT

-- Each read of the walk is of another entry of the map, so it is over before they are.
def ancestors (reportsTo : Fields) (bot : EntityId) : List EntityId :=
  climbed (botAbove loaded reportsTo) (reportsTo.keys.length+1) [bot] bot

def seeBox (reportsTo : Fields) (caller : EntityId) (above : List EntityId) (seen : VisibleBoxes) (mailbox : Box) : VisibleBoxes :=
  if kindOf loaded mailbox.owner ≠ some BOT then seen
  else
    let seen := { seen with botBoxes := seen.botBoxes ++ [mailbox.name] }
    if mailbox.owner = caller then { seen with allowed := seen.allowed ++ [mailbox.name] }
    -- Even a damaged cycle must not turn an ancestor into a report.
    else if above.contains mailbox.owner then { seen with above := seen.above ++ [mailbox.name] }
    else if (ancestors loaded reportsTo mailbox.owner).contains caller then
      { seen with allowed := seen.allowed ++ [mailbox.name] }
    else seen

def privateBoxesOf (board : List Box) : List Text := (board.filter (·.isPrivate loaded)).map (·.name)

def visibleBoxes (caller : Option EntityId) (reportsTo : Fields) (board : List Box) : VisibleBoxes :=
  let seen : VisibleBoxes := { privateBoxes := privateBoxesOf loaded board }
  match caller.filter fun caller => kindOf loaded caller = some BOT with
  | none => seen
  | some caller =>
    board.foldl (seeBox loaded reportsTo caller (ancestors loaded reportsTo caller)) { seen with caller := some caller }

-- Another bot the walk up the chart comes to.
def Above (reportsTo : Fields) (bot other : EntityId) : Prop := other ≠ bot ∧ Climbs (botAbove loaded reportsTo) bot other

variable {loaded} {reportsTo : Fields} {board : List Box} {caller one other : EntityId} {mailbox : Box}

theorem mem_ancestors : other ∈ ancestors loaded reportsTo one ↔ Above loaded reportsTo one other := by
  apply mem_climbed
  intro bot goes
  apply ExtTreeMap.mem_keys.mpr
  rw [ExtTreeMap.mem_iff_isSome_getElem?]
  cases held : reportsTo[bot]? with
  | none =>
    unfold botAbove at goes
    rw [held] at goes
    exact absurd rfl goes
  | some value => rfl

-- Whether a caller reads the inside of a box, off its owner.
def ReadsInside (loaded : List Text) (reportsTo : Fields) (caller owner : EntityId) : Prop :=
  kindOf loaded owner = some BOT ∧
    (owner = caller ∨ (¬Above loaded reportsTo caller owner ∧ Above loaded reportsTo owner caller))

theorem seeBox_frame (seen : VisibleBoxes) (above : List EntityId) :
    (seeBox loaded reportsTo caller above seen mailbox).caller = seen.caller ∧
      (seeBox loaded reportsTo caller above seen mailbox).privateBoxes = seen.privateBoxes ∧
      (seeBox loaded reportsTo caller above seen mailbox).readsEveryBotBox = seen.readsEveryBotBox := by
  unfold seeBox
  dsimp only
  split
  · exact ⟨rfl,rfl,rfl⟩
  · split
    · exact ⟨rfl,rfl,rfl⟩
    · split
      · exact ⟨rfl,rfl,rfl⟩
      · split
        · exact ⟨rfl,rfl,rfl⟩
        · exact ⟨rfl,rfl,rfl⟩

theorem seeBox_botBoxes (seen : VisibleBoxes) (above : List EntityId) (name : Text) :
    name ∈ (seeBox loaded reportsTo caller above seen mailbox).botBoxes ↔
      name ∈ seen.botBoxes ∨ (mailbox.name = name ∧ kindOf loaded mailbox.owner = some BOT) := by
  have laid : name ∈ seen.botBoxes ++ [mailbox.name] ↔ name ∈ seen.botBoxes ∨ mailbox.name = name := by
    rw [List.mem_append,List.mem_singleton,eq_comm]
  unfold seeBox
  dsimp only
  split
  · rename_i noBot
    simp [noBot]
  · rename_i bot
    have isBot := not_not.mp bot
    rw [and_iff_left isBot,←laid]
    split
    · rfl
    · split
      · rfl
      · split
        · rfl
        · rfl

theorem seeBox_allowed (seen : VisibleBoxes) (name : Text) :
    name ∈ (seeBox loaded reportsTo caller (ancestors loaded reportsTo caller) seen mailbox).allowed ↔
      name ∈ seen.allowed ∨ (mailbox.name = name ∧ ReadsInside loaded reportsTo caller mailbox.owner) := by
  have laid : name ∈ seen.allowed ++ [mailbox.name] ↔ name ∈ seen.allowed ∨ mailbox.name = name := by
    rw [List.mem_append,List.mem_singleton,eq_comm]
  unfold seeBox ReadsInside
  dsimp only
  split
  · rename_i noBot
    simp [noBot]
  · rename_i bot
    have isBot := not_not.mp bot
    have walked : ∀ one other, (ancestors loaded reportsTo one).contains other = true ↔ Above loaded reportsTo one other :=
      fun _ _ => List.contains_iff_mem.trans mem_ancestors
    split
    · rename_i own
      rw [laid,and_iff_left ⟨isBot,Or.inl own⟩]
    · rename_i notOwn
      split
      · rename_i above
        simp [notOwn,(walked _ _).mp above]
      · rename_i notAbove
        have clear := (walked caller mailbox.owner).not.mp notAbove
        split
        · rename_i below
          rw [laid,and_iff_left ⟨isBot,Or.inr ⟨clear,(walked _ _).mp below⟩⟩]
        · rename_i notBelow
          have apart := (walked mailbox.owner caller).not.mp notBelow
          simp [notOwn,apart]

theorem seenBoxes (seen : VisibleBoxes) :
    let after := board.foldl (seeBox loaded reportsTo caller (ancestors loaded reportsTo caller)) seen
    (after.caller = seen.caller ∧ after.privateBoxes = seen.privateBoxes ∧ after.readsEveryBotBox = seen.readsEveryBotBox) ∧
      (∀ name, name ∈ after.botBoxes ↔
        name ∈ seen.botBoxes ∨ ∃ mailbox ∈ board, mailbox.name = name ∧ kindOf loaded mailbox.owner = some BOT) ∧
      ∀ name, name ∈ after.allowed ↔
        name ∈ seen.allowed ∨ ∃ mailbox ∈ board, mailbox.name = name ∧ ReadsInside loaded reportsTo caller mailbox.owner := by
  dsimp only
  induction board generalizing seen with
  | nil => simp
  | cons first rest ih =>
    obtain ⟨frame,bots,allowed⟩ := ih (seeBox loaded reportsTo caller (ancestors loaded reportsTo caller) seen first)
    obtain ⟨sameCaller,samePrivate,sameReads⟩ := @seeBox_frame loaded reportsTo caller first seen (ancestors loaded reportsTo caller)
    rw [List.foldl_cons]
    refine ⟨⟨frame.1.trans sameCaller,frame.2.1.trans samePrivate,frame.2.2.trans sameReads⟩,?_,?_⟩
    · intro name
      rw [bots,seeBox_botBoxes,or_assoc,List.exists_mem_cons_iff]
    · intro name
      rw [allowed,seeBox_allowed,or_assoc,List.exists_mem_cons_iff]

def seenBy (loaded : List Text) (reportsTo : Fields) (board : List Box) (caller : EntityId) : VisibleBoxes :=
  visibleBoxes loaded (some caller) reportsTo board

theorem seenBy_parts (bot : kindOf loaded caller = some BOT) :
    let seen := seenBy loaded reportsTo board caller
    (seen.caller = some caller ∧ seen.privateBoxes = privateBoxesOf loaded board ∧ seen.readsEveryBotBox = false) ∧
      (∀ name, name ∈ seen.botBoxes ↔ ∃ mailbox ∈ board, mailbox.name = name ∧ kindOf loaded mailbox.owner = some BOT) ∧
      ∀ name, name ∈ seen.allowed ↔ ∃ mailbox ∈ board, mailbox.name = name ∧ ReadsInside loaded reportsTo caller mailbox.owner := by
  dsimp only
  have shape : seenBy loaded reportsTo board caller =
      board.foldl (seeBox loaded reportsTo caller (ancestors loaded reportsTo caller))
        { privateBoxes := privateBoxesOf loaded board, caller := some caller } := by
    unfold seenBy visibleBoxes
    rw [Option.filter_some,if_pos (decide_eq_true bot)]
  rw [shape]
  obtain ⟨frame,bots,allowed⟩ := @seenBoxes loaded reportsTo board caller
    { privateBoxes := privateBoxesOf loaded board, caller := some caller }
  refine ⟨frame,?_,?_⟩
  · intro name
    rw [bots,or_iff_right List.not_mem_nil]
  · intro name
    rw [allowed,or_iff_right List.not_mem_nil]

theorem same_box (distinct : (board.map (·.name)).Nodup) {left right : Box} (inLeft : left ∈ board) (inRight : right ∈ board)
    (same : left.name = right.name) : left = right :=
  List.inj_on_of_nodup_map distinct inLeft inRight same

theorem message_readable (seen : VisibleBoxes) (isCaller : seen.caller = some caller) (chartReads : seen.readsEveryBotBox = false)
    (apart : ∀ name ∈ seen.botBoxes, name ∉ seen.privateBoxes) (inside : ∀ name ∈ seen.allowed, name ∈ seen.botBoxes)
    (name : Text) (sender : Option Text) :
    seen.message name sender = .readable ↔ name ∈ seen.allowed ∨ (sender = some caller ∧ name ∈ seen.botBoxes) := by
  unfold VisibleBoxes.message
  rw [isCaller,chartReads]
  by_cases listed : name ∈ seen.botBoxes
  · have notPrivate := apart name listed
    by_cases authored : sender = some caller
    · simp [listed,notPrivate,authored]
    · by_cases allowed : name ∈ seen.allowed
      · simp [listed,notPrivate,authored,allowed]
      · simp [listed,notPrivate,authored,allowed]
  · have notAllowed : name ∉ seen.allowed := fun member => listed (inside name member)
    have never : ∀ visibility : MessageVisibility, (visibility = .receipt ∨ visibility = .withheld) → visibility ≠ .readable := by
      intro visibility either
      rcases either with same | same
      · rw [same]
        decide
      · rw [same]
        decide
    apply iff_of_false
    · apply never
      by_cases hidden : name ∈ seen.privateBoxes
      · by_cases authored : sender = some caller
        · simp [hidden,authored]
        · simp [hidden,authored]
      · by_cases authored : sender = some caller
        · simp [hidden,authored,listed]
        · simp [hidden,authored,listed]
    · intro either
      rcases either with member | both
      · exact notAllowed member
      · exact listed both.2

theorem reads_allowed (bot : kindOf loaded caller = some BOT) :
    (seenBy loaded reportsTo board caller).mailScope.reads = (seenBy loaded reportsTo board caller).allowed := by
  unfold VisibleBoxes.mailScope
  rw [(seenBy_parts bot).1.2.2,if_neg Bool.false_ne_true]
  rfl

theorem box_read (bot : kindOf loaded caller = some BOT) (distinct : (board.map (·.name)).Nodup) {mailbox : Box}
    (member : mailbox ∈ board) :
    mailbox.name ∈ (seenBy loaded reportsTo board caller).mailScope.reads ↔ ReadsInside loaded reportsTo caller mailbox.owner := by
  rw [reads_allowed bot,(seenBy_parts bot).2.2]
  constructor
  · intro named
    obtain ⟨found,inBoard,same,inside⟩ := named
    rw [same_box distinct inBoard member same] at inside
    exact inside
  · intro inside
    exact ⟨mailbox,member,rfl,inside⟩

-- A box is a bot's or a person's, never both.
theorem botBoxes_apart (bot : kindOf loaded caller = some BOT) (distinct : (board.map (·.name)).Nodup) (name : Text)
    (listed : name ∈ (seenBy loaded reportsTo board caller).botBoxes) :
    name ∉ (seenBy loaded reportsTo board caller).privateBoxes := by
  intro hidden
  obtain ⟨mailbox,member,same,isBot⟩ := ((seenBy_parts bot).2.1 name).mp listed
  rw [(seenBy_parts bot).1.2.1] at hidden
  obtain ⟨other,found,same'⟩ := List.mem_map.mp hidden
  obtain ⟨inBoard,isPerson⟩ := List.mem_filter.mp found
  have person : kindOf loaded other.owner = some PERSON := of_decide_eq_true isPerson
  rw [same_box distinct inBoard member (same'.trans same.symm),isBot] at person
  exact absurd person (by decide)

theorem allowed_listed (bot : kindOf loaded caller = some BOT) (name : Text)
    (member : name ∈ (seenBy loaded reportsTo board caller).allowed) : name ∈ (seenBy loaded reportsTo board caller).botBoxes := by
  obtain ⟨mailbox,inBoard,same,readsIt⟩ := ((seenBy_parts bot).2.2 name).mp member
  exact ((seenBy_parts bot).2.1 name).mpr ⟨mailbox,inBoard,same,readsIt.1⟩

theorem admits_iff (bot : kindOf loaded caller = some BOT) (name : Text) (sender : Text) :
    (seenBy loaded reportsTo board caller).mailScope.admits name sender = true ↔
      name ∈ (seenBy loaded reportsTo board caller).allowed ∨
        (some sender = some caller ∧ name ∈ (seenBy loaded reportsTo board caller).botBoxes) := by
  obtain ⟨isCaller,_,chartReads⟩ := (@seenBy_parts loaded reportsTo board caller bot).1
  unfold VisibleBoxes.mailScope
  rw [chartReads,if_neg Bool.false_ne_true,isCaller]
  unfold MailScope.admits
  dsimp only
  rw [Bool.or_eq_true,Bool.and_eq_true,List.contains_iff_mem,List.contains_iff_mem,decide_eq_true_eq]
  exact or_congr_right (and_congr_left fun _ => eq_comm)

theorem mail_follows_the_chart (loaded : List Text) (reportsTo : Fields) (board : List Box)
    (distinct : (board.map (·.name)).Nodup) (caller : EntityId) (bot : kindOf loaded caller = some BOT) :
    let seen := seenBy loaded reportsTo board caller
    (∀ mailbox ∈ board, mailbox.name ∈ seen.mailScope.reads ↔ mailbox.owner = caller ∨
      (kindOf loaded mailbox.owner = some BOT ∧ Above loaded reportsTo mailbox.owner caller ∧
        ¬Above loaded reportsTo caller mailbox.owner)) ∧
    (∀ name ∈ seen.mailScope.reads, ∃ mailbox ∈ board, mailbox.name = name) ∧
    (∀ other, other ≠ caller → kindOf loaded other = some BOT → ∀ own ∈ board, own.owner = caller → ∀ theirs ∈ board,
      theirs.owner = other → ¬(theirs.name ∈ seen.mailScope.reads ∧
        own.name ∈ (seenBy loaded reportsTo board other).mailScope.reads)) ∧
    (∀ name sender, seen.message name sender = .readable ↔ name ∈ seen.mailScope.reads ∨
      (sender = some caller ∧ ∃ mailbox ∈ board, mailbox.name = name ∧ kindOf loaded mailbox.owner = some BOT)) ∧
    (∀ name sender, seen.message name (some sender) = .readable ↔ seen.mailScope.admits name sender = true) ∧
    ∀ mailbox ∈ board, kindOf loaded mailbox.owner = some PERSON →
      mailbox.name ∉ seen.mailScope.reads ∧ ∀ sender, seen.mailScope.admits mailbox.name sender = false := by
  dsimp only
  obtain ⟨⟨isCaller,_,chartReads⟩,bots,allowed⟩ := @seenBy_parts loaded reportsTo board caller bot
  have reads := fun one (isBot : kindOf loaded one = some BOT) mailbox (member : mailbox ∈ board) =>
    @box_read loaded reportsTo board one isBot distinct mailbox member
  have inside := @allowed_listed loaded reportsTo board caller bot
  have judged := message_readable _ isCaller chartReads (botBoxes_apart bot distinct) inside
  refine ⟨?_,?_,?_,?_,?_,?_⟩
  · intro mailbox member
    rw [reads caller bot mailbox member]
    unfold ReadsInside
    constructor
    · intro inside
      obtain ⟨isBot,own | below⟩ := inside
      · exact Or.inl own
      · exact Or.inr ⟨isBot,below.2,below.1⟩
    · intro either
      rcases either with own | below
      · exact ⟨by rw [own]; exact bot,Or.inl own⟩
      · exact ⟨below.1,Or.inr ⟨below.2.2,below.2.1⟩⟩
  · intro name member
    rw [reads_allowed bot] at member
    obtain ⟨mailbox,inBoard,same,_⟩ := (allowed name).mp member
    exact ⟨mailbox,inBoard,same⟩
  · intro other differs isBot own inOwn ownersOwn theirs inTheirs ownersTheirs both
    have down := (reads caller bot theirs inTheirs).mp both.1
    have up := (reads other isBot own inOwn).mp both.2
    rw [ownersTheirs] at down
    rw [ownersOwn] at up
    exact (down.2.resolve_left differs).1 (up.2.resolve_left differs.symm).2
  · intro name sender
    rw [judged,reads_allowed bot]
    exact or_congr_right (and_congr_right fun _ => bots name)
  · intro name sender
    rw [judged,admits_iff bot]
  · intro mailbox member person
    have notBot : kindOf loaded mailbox.owner ≠ some BOT := by
      rw [person]
      decide
    constructor
    · intro inReads
      exact notBot ((reads caller bot mailbox member).mp inReads).1
    · intro sender
      apply Bool.eq_false_iff.mpr
      intro admitted
      have listed : mailbox.name ∈ (seenBy loaded reportsTo board caller).botBoxes := by
        rcases (admits_iff bot _ _).mp admitted with read | authored
        · exact inside _ read
        · exact authored.2
      obtain ⟨found,inBoard,same,isBot⟩ := (bots _).mp listed
      rw [same_box distinct inBoard member same] at isBot
      exact notBot isBot

def managed : List Box := [{ name := "beta".toList, owner := "bot:beta".toList },{ name := "gamma".toList, owner := "bot:gamma".toList }]

def gammaUnderBeta : Fields := (∅ : Fields).insert "bot:gamma".toList "bot:beta".toList

theorem a_bot_reads_below_itself :
    "gamma".toList ∈ (seenBy ["bot".toList] gammaUnderBeta managed "bot:beta".toList).mailScope.reads ∧
      "beta".toList ∉ (seenBy ["bot".toList] gammaUnderBeta managed "bot:gamma".toList).mailScope.reads := by
  have exclusive := (mail_follows_the_chart ["bot".toList] gammaUnderBeta managed (by decide) "bot:beta".toList (by decide)).2.2.1
  have reads : "gamma".toList ∈ (seenBy ["bot".toList] gammaUnderBeta managed "bot:beta".toList).mailScope.reads := by
    decide +kernel
  refine ⟨reads,?_⟩
  intro above
  exact exclusive "bot:gamma".toList (by decide) (by decide) ⟨"beta".toList,"bot:beta".toList,{},[]⟩ (by decide) rfl
    ⟨"gamma".toList,"bot:gamma".toList,{},[]⟩ (by decide) rfl ⟨reads,above⟩

-- A bot reads what it wrote in a box above it, which is not in its scope.
theorem an_author_reads_its_mail_above :
    (seenBy ["bot".toList] gammaUnderBeta managed "bot:gamma".toList).message "beta".toList (some "bot:gamma".toList) = .readable ∧
      "beta".toList ∉ (seenBy ["bot".toList] gammaUnderBeta managed "bot:gamma".toList).mailScope.reads := by
  decide +kernel

end Mailbox
