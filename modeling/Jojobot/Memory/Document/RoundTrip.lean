import Jojobot.Memory.Document.Sections

namespace Document
open Library Std Memory

variable {run key : Text} {one : Section} {edges : Edges} {fact : Fact} {c : Char}

-- A character is escaped by one letter, or by its number in braces.
theorem escapeChar_cases (c : Char) : (∃ letter ∈ ['n','r','t','s'], escapeChar c = ['\\',letter]) ∨
    escapeChar c = '\\' :: 'u' :: '{' :: (printHex c.toNat ++ ['}']) := by
  unfold escapeChar
  split
  · exact .inl ⟨'n',by simp,rfl⟩
  · split
    · exact .inl ⟨'r',by simp,rfl⟩
    · split
      · exact .inl ⟨'t',by simp,rfl⟩
      · split
        · exact .inl ⟨'s',by simp,rfl⟩
        · exact .inr rfl

theorem escapeChar_solid {d : Char} (member : c ∈ escapeChar d) : isWhitespace c = false ∧ c ≠ ';' := by
  rcases escapeChar_cases d with ⟨letter,short,shape⟩ | shape
  · have solid : ∀ letter ∈ ['n','r','t','s'], ∀ c ∈ ['\\',letter], isWhitespace c = false ∧ c ≠ ';' := by
      simp [isWhitespace]
    rw [shape] at member
    exact solid letter short c member
  · have solid : ∀ c ∈ ['\\','u','{','}'], isWhitespace c = false ∧ c ≠ ';' := by simp [isWhitespace]
    rw [shape] at member
    by_cases digit : c ∈ printHex d.toNat
    · exact ⟨(printHex_plain digit).1,(printHex_plain digit).2.1⟩
    · apply solid c
      simp only [List.mem_cons,List.mem_append,digit,false_or] at member ⊢
      exact member

theorem escape_solid (member : c ∈ escape run) : isWhitespace c = false ∧ c ≠ ';' := by
  obtain ⟨d,_,inChar⟩ := List.mem_flatMap.mp member
  exact escapeChar_solid inChar

theorem charFromU32_toNat (c : Char) : charFromU32 c.toNat = some c := by
  have valid : c.toNat.isValidChar := c.valid
  rw [charFromU32,if_pos valid,Char.ofNat_toNat]

theorem hexRun_append (hex rest : Text) (plain : ∀ c ∈ hex, c ≠ '}') : hexRun (hex ++ '}' :: rest) = some (hex,rest) := by
  induction hex with
  | nil => rfl
  | cons h hex ih =>
    obtain ⟨other,others⟩ := List.forall_mem_cons.mp plain
    rw [List.cons_append,hexRun,ih others]
    · rfl
    · exact other

theorem unescapeFrom_escapeChar (fuel : Nat) (c : Char) (rest : Text) :
    unescapeFrom (fuel+1) (escapeChar c ++ rest) = (unescapeFrom fuel rest).map (c :: ·) := by
  unfold escapeChar
  split
  · rename_i same; subst same; rfl
  · split
    · rename_i same; subst same; rfl
    · split
      · rename_i same; subst same; rfl
      · split
        · rename_i same; subst same; rfl
        · have fits : c.toNat < 2^32 := c.val.toNat_lt
          have closed := hexRun_append (printHex c.toNat) rest fun _ member => (printHex_plain member).2.2.1
          have shape : "\\u\x7b".toList ++ printHex c.toNat ++ "\x7d".toList ++ rest =
              '\\' :: 'u' :: '{' :: (printHex c.toNat ++ '}' :: rest) := by simp
          rw [shape,unescapeFrom,closed]
          simp only [Option.bind_eq_bind,Option.bind_some,parseHex_printHex fits,charFromU32_toNat]
          cases unescapeFrom fuel rest <;> rfl

theorem unescapeFrom_escape (run : Text) (fuel : Nat) (enough : run.length ≤ fuel) :
    unescapeFrom fuel (escape run) = some run := by
  induction run generalizing fuel with
  | nil => cases fuel <;> rfl
  | cons c run ih =>
    cases fuel with
    | zero => cases enough
    | succ fuel =>
      have others := ih fuel (Nat.le_of_succ_le_succ enough)
      rw [escape,List.flatMap_cons,unescapeFrom_escapeChar]
      rw [escape] at others
      rw [others]
      rfl

theorem escapeChar_length (c : Char) : 1 ≤ (escapeChar c).length := by
  rcases escapeChar_cases c with ⟨letter,_,shape⟩ | shape
  · rw [shape]
    exact Nat.succ_pos _
  · rw [shape]
    exact Nat.succ_pos _

theorem escape_length (run : Text) : run.length ≤ (escape run).length := by
  induction run with
  | nil => exact Nat.le_refl 0
  | cons c run ih =>
    rw [escape,List.flatMap_cons,List.length_append,List.length_cons]
    rw [escape] at ih
    have own := escapeChar_length c
    omega

theorem unescape_escape (run : Text) : unescape (escape run) = some run :=
  unescapeFrom_escape run _ (escape_length run)

theorem encode_solid (edges : Edges) : ∀ c ∈ edges.encode, isWhitespace c = false := by
  intro c member
  simp only [Edges.encode,List.mem_append,List.mem_cons] at member
  have semi : isWhitespace ';' = false := rfl
  rcases member with ((lead | same | mid) | same | sep) | same | tail
  · exact (escape_solid lead).1
  · exact same ▸ semi
  · exact (escape_solid mid).1
  · exact same ▸ semi
  · exact (escape_solid sep).1
  · exact same ▸ semi
  · exact (escape_solid tail).1

theorem decode_encode (edges : Edges) : Edges.decode edges.encode = some edges := by
  have clean : ∀ run, ';' ∉ escape run := fun run member => (escape_solid member).2 rfl
  have runs : edges.encode.splitOn ';' = [escape edges.lead,escape edges.mid,escape edges.sep,escape edges.tail] := by
    simp only [Edges.encode,List.append_assoc,List.cons_append]
    rw [List.splitOn_append_cons_self_of_not_mem (clean _),List.splitOn_append_cons_self_of_not_mem (clean _),
      List.splitOn_append_cons_self_of_not_mem (clean _),List.splitOn_eq_singleton (clean _)]
  rw [Edges.decode,runs]
  simp only [unescape_escape]
  rfl

-- A store's trimming takes nothing off the fields a section is written with.
theorem recordFields_kept (sound : Sound one) (keyed : Trimmed key) :
    let fields := (recordFields one key).map fun _ value => trim value
    fields[ORDER]? = some key ∧ fields[LEVEL]? = some (printNat one.level) ∧
      fields[EDGES]? = some one.edges.encode ∧ fields[CONTINUES]? = none := by
  have written : recordFields one key =
      ((({} : Fields).insert LEVEL (printNat one.level)).insert ORDER key).insert EDGES one.edges.encode := by
    rw [recordFields,sound.whole]
    rfl
  have key' : trim key = key := keyed
  have level : trim (printNat one.level) = printNat one.level := trim_printNat _
  have encoded : trim one.edges.encode = one.edges.encode := trim_solid (encode_solid one.edges)
  have apart : LEVEL ≠ ORDER ∧ EDGES ≠ LEVEL ∧ EDGES ≠ ORDER ∧ ORDER ≠ LEVEL ∧ ORDER ≠ CONTINUES ∧
      LEVEL ≠ CONTINUES ∧ EDGES ≠ CONTINUES := by decide
  simp only [written,ExtTreeMap.getElem?_map,ExtTreeMap.getElem?_insert,Std.compare_eq_iff_eq]
  simp [apart,key',level,encoded]

theorem readRecord_stored (sound : Sound one) (keyed : Trimmed key) (stored : Stored one key fact) :
    readRecord fact = some (key,one) := by
  obtain ⟨content,details,fields⟩ := stored
  obtain ⟨order,level,edges,continues⟩ := recordFields_kept sound keyed
  rw [← fields] at order level edges continues
  have body : fact.details.getD [] = one.body := by
    rw [details]
    split
    · rename_i empty
      rw [empty]
      rfl
    · exact sound.body
  have fits : one.level < 2^8 := Nat.lt_of_le_of_lt sound.level (by decide)
  have first : fact.content = one.firstLine := content.trans sound.firstLine
  have repaired : (if one.body = [] then { one.edges with sep := [] }
      else if '\n' ∉ one.edges.sep then { one.edges with sep := "\n\n".toList } else one.edges) = one.edges := by
    split
    · rename_i empty
      rw [← sound.bare empty]
    · rename_i filled
      rw [if_neg (not_not.mpr (sound.parted filled))]
  rw [readRecord,fromRecord,order,level,edges,continues,body,first]
  simp only [Option.bind_eq_bind,Option.bind_some,decode_encode,Option.getD_some,parseUnsigned_printNat fits,
    repaired,Option.any_none]
  rw [← sound.whole]

-- The records of a document, each under the key its section was minted.
def StoredUnder (minted : Text × Section) (fact : Fact) : Prop := Stored minted.2 minted.1 fact

theorem stored_place (sound : Sound one) (keyed : Trimmed key) (stored : Stored one key fact) :
    fact.fields.contains ORDER = true ∧ orderKey fact = key := by
  have order := (recordFields_kept sound keyed).1
  rw [← stored.fields] at order
  constructor
  · rw [ExtTreeMap.contains_eq_isSome_getElem?,order]
    rfl
  · rw [orderKey,order]
    rfl

variable {minted : List (Text × Section)} {records handed : List Fact}

theorem records_facts (sound : ∀ pair ∈ minted, Sound pair.2 ∧ Trimmed pair.1)
    (stored : List.Forall₂ StoredUnder minted records) :
    records.map readRecord = minted.map some ∧ records.map orderKey = minted.map Prod.fst ∧
      ∀ fact ∈ records, fact.fields.contains ORDER = true := by
  induction stored with
  | nil => simp
  | cons first _ ih =>
    obtain ⟨⟨own,keyed⟩,others⟩ := List.forall_mem_cons.mp sound
    obtain ⟨read,keys,placed⟩ := ih others
    obtain ⟨contained,key⟩ := stored_place own keyed first
    refine ⟨?_,?_,List.forall_mem_cons.mpr ⟨contained,placed⟩⟩
    · rw [List.map_cons,List.map_cons,read,readRecord_stored own keyed first]
    · rw [List.map_cons,List.map_cons,keys,key]

-- However the records are handed back, their keys put them in the document's order.
theorem placedInOrder_records (sound : ∀ pair ∈ minted, Sound pair.2 ∧ Trimmed pair.1)
    (ordered : (minted.map Prod.fst).Pairwise fun a b => compare a b = .lt)
    (stored : List.Forall₂ StoredUnder minted records) (same : handed.Perm records) :
    placedInOrder handed = records := by
  obtain ⟨_,keys,placed⟩ := records_facts sound stored
  have kept : handed.filter (·.fields.contains ORDER) = handed :=
    List.filter_eq_self.mpr fun fact member => placed fact (same.mem_iff.mp member)
  rw [placedInOrder,kept]
  apply sortBy_eq same.symm
  rw [← keys,List.pairwise_map] at ordered
  exact ordered.imp placedCmp_lt

theorem key_trimmed (isKey : isAKey key = true) : Trimmed key := by
  apply trim_solid
  intro c member
  have solid : (DIGITS.all fun c => !isWhitespace c) = true := by decide +kernel
  simpa using List.all_eq_true.mp solid c ((isAKey_iff.mp isKey).2.1 c member)

theorem text_survives_storing : (∀ text sections, split text = .ok sections →
    ∃ keys, spread none none sections.length = .ok keys ∧ keys.length = sections.length ∧
      ∀ records handed, List.Forall₂ StoredUnder (keys.zip sections) records → handed.Perm records →
        (placedInOrder handed).map readRecord = (keys.zip sections).map some ∧
        ((placedInOrder handed).filterMap readRecord).map Prod.snd = sections ∧
        join (((placedInOrder handed).filterMap readRecord).map Prod.snd) = text) ∧
    ∀ text, (∃ error, split text = .error error) ↔
      LoneReturn text ∨ text ≠ [] ∧ ∀ c ∈ text, isWhitespace c = true := by
  refine ⟨?_,fun _ => split_refuses⟩
  intro text sections accepted
  obtain ⟨keys,ran,length,ordered,isKeys⟩ := spread_keys sections.length
  refine ⟨keys,ran,length,?_⟩
  intro records handed stored same
  have sound : ∀ pair ∈ keys.zip sections, Sound pair.2 ∧ Trimmed pair.1 := by
    intro pair member
    obtain ⟨inKeys,inSections⟩ := List.of_mem_zip member
    exact ⟨split_sound accepted _ inSections,key_trimmed (isKeys _ inKeys)⟩
  have firsts : (keys.zip sections).map Prod.fst = keys := List.map_fst_zip (Nat.le_of_eq length)
  have seconds : (keys.zip sections).map Prod.snd = sections := List.map_snd_zip (Nat.le_of_eq length.symm)
  have placed := placedInOrder_records sound (by rw [firsts]; exact ordered) stored same
  have read := (records_facts sound stored).1
  have found : records.filterMap readRecord = keys.zip sections := by
    have whole := congrArg (List.filterMap id) read
    rwa [List.filterMap_map,List.filterMap_map,Function.id_comp,Function.id_comp,List.filterMap_some] at whole
  rw [placed,found,seconds]
  exact ⟨read,rfl,join_split accepted⟩

-- The record a section is kept as, with an id of its own.
def keptAs (id : Text) (minted : Text × Section) : Fact where
  id
  home := []
  content := trim minted.2.firstLine
  details := if minted.2.body = [] then none else some (trim minted.2.body)
  status := .active
  fields := (recordFields minted.2 minted.1).map fun _ value => trim value

theorem headed_text_survives : ∃ sections keys first second, split " # A \r\n\nwords\t\n## B".toList = .ok sections ∧
    spread none none sections.length = .ok keys ∧
    List.Forall₂ StoredUnder (keys.zip sections) [first,second] ∧
    join (((placedInOrder [second,first]).filterMap readRecord).map Prod.snd) = " # A \r\n\nwords\t\n## B".toList := by
  have accepted : ∃ heading under, split " # A \r\n\nwords\t\n## B".toList = .ok [heading,under] := ⟨_,_,rfl⟩
  obtain ⟨heading,under,accepted⟩ := accepted
  obtain ⟨keys,ran,length,each⟩ := text_survives_storing.1 _ _ accepted
  obtain ⟨one,other,shape⟩ := List.length_eq_two.mp length
  subst shape
  have stored : List.Forall₂ StoredUnder ([one,other].zip [heading,under])
      [keptAs "f1".toList (one,heading),keptAs "f2".toList (other,under)] :=
    .cons ⟨rfl,rfl,rfl⟩ (.cons ⟨rfl,rfl,rfl⟩ .nil)
  exact ⟨_,_,_,_,accepted,ran,stored,(each _ _ stored (List.Perm.swap ..)).2.2⟩

end Document
