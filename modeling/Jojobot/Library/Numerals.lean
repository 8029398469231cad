import Jojobot.Library.Text

namespace Library

-- A number as it is printed, and as the standard library reads one back: a leading
-- plus is taken off, and a number past the width is none.
def printNat (n : Nat) : Text := Nat.toDigits 10 n

def digits (text : Text) : Option Nat :=
  if text ≠ [] ∧ text.all Char.isDigit then some (Nat.ofDigitChars 10 text 0) else none

def dropPlus : Text → Text
  | '+'::rest => rest
  | text => text

def parseUnsigned (width : Nat) (text : Text) : Option Nat := (digits (dropPlus text)).filter (· < 2^width)

-- A signed number's, of either sign.
def parseSigned (width : Nat) (text : Text) : Option Int :=
  match text with
  | '-'::rest => ((digits rest).filter (· ≤ 2^(width-1))).map fun n => -(n : Int)
  | _ => ((digits (dropPlus text)).filter (· < 2^(width-1))).map fun n => (n : Int)

def printInt : Int → Text
  | .ofNat n => printNat n
  | .negSucc n => '-' :: printNat (n+1)

-- A whole number of any size, read back.
def readInt : Text → Option Int
  | '-'::rest => (digits rest).map fun n => -(n : Int)
  | text => (digits text).map fun n => (n : Int)

variable {c : Char} {n width : Nat}

theorem printNat_digit (member : c ∈ printNat n) : c.isDigit = true :=
  Nat.isDigit_of_mem_toDigits (by omega) (by omega) member

theorem digits_printNat (n : Nat) : digits (printNat n) = some n := by
  have all : (printNat n).all Char.isDigit = true := List.all_eq_true.mpr fun c => printNat_digit
  rw [digits,if_pos ⟨Nat.toDigits_ne_nil,all⟩,printNat,Nat.ofDigitChars_ten_toDigits]

theorem printInt_ne_nil (z : Int) : printInt z ≠ [] := by
  cases z with
  | ofNat n => exact Nat.toDigits_ne_nil
  | negSucc n => exact nofun

theorem readInt_printInt (z : Int) : readInt (printInt z) = some z := by
  cases z with
  | ofNat n =>
    change readInt (printNat n) = _
    unfold readInt
    split
    · rename_i rest signed
      have byte : '-' ∈ printNat n := by
        rw [signed]
        exact List.mem_cons_self
      have digit := printNat_digit byte
      cases digit
    · rw [digits_printNat]
      rfl
  | negSucc n =>
    change readInt ('-' :: printNat (n+1)) = _
    rw [readInt,digits_printNat]
    rfl

theorem parseUnsigned_printNat (fits : n < 2^width) : parseUnsigned width (printNat n) = some n := by
  have plain : dropPlus (printNat n) = printNat n := by
    rw [dropPlus.eq_def]
    split
    · rename_i rest shape
      have plus : '+'.isDigit = true := printNat_digit (by rw [shape]; exact List.mem_cons_self)
      cases plus
    · rfl
  rw [parseUnsigned,plain,digits_printNat]
  simp [fits]

theorem digit_solid (digit : c.isDigit = true) : isWhitespace c = false := by
  have bounds : 48 ≤ c.toNat ∧ c.toNat ≤ 57 := by
    simp only [Char.isDigit,Bool.and_eq_true,decide_eq_true_eq] at digit
    exact digit
  simp [isWhitespace]
  omega

theorem trim_solid {text : Text} (solid : ∀ c ∈ text, isWhitespace c = false) : trim text = text :=
  trimmed_iff.mpr ⟨fun c found => solid c (List.mem_of_mem_head? found),
    fun c found => solid c (List.mem_of_mem_getLast? found)⟩

theorem printInt_solid {z : Int} (member : c ∈ printInt z) : isWhitespace c = false := by
  cases z with
  | ofNat n => exact digit_solid (printNat_digit member)
  | negSucc n =>
    rcases List.mem_cons.mp member with sign | later
    · subst sign
      decide
    · exact digit_solid (printNat_digit later)

theorem trim_printNat (n : Nat) : trim (printNat n) = printNat n :=
  trim_solid fun _ member => digit_solid (printNat_digit member)

theorem printNat_inj {m : Nat} (same : printNat n = printNat m) : n = m := by
  have read := congrArg digits same
  rw [digits_printNat,digits_printNat] at read
  exact Option.some.inj read

-- A number in lower-case hexadecimal, and `from_str_radix` of either case.
def printHex (n : Nat) : Text := Nat.toDigits 16 n

def hexDigit (c : Char) : Option Nat :=
  if '0' ≤ c ∧ c ≤ '9' then some (c.toNat-48)
  else if 'a' ≤ c ∧ c ≤ 'f' then some (c.toNat-87)
  else if 'A' ≤ c ∧ c ≤ 'F' then some (c.toNat-55)
  else none

def hexFrom : Nat → Text → Option Nat
  | n,[] => some n
  | n,c :: rest => (hexDigit c).bind fun d => hexFrom (16*n+d) rest

def parseHex (width : Nat) (text : Text) : Option Nat :=
  match dropPlus text with
  | [] => none
  | digits => (hexFrom 0 digits).filter (· < 2^width)

theorem hexDigit_digit {d : Nat} (small : d < 16) : hexDigit d.digitChar = some d := by
  interval_cases d <;> rfl

theorem hexFrom_append (n : Nat) (front back : Text) : hexFrom n (front ++ back) = (hexFrom n front).bind (hexFrom · back) := by
  induction front generalizing n with
  | nil => rfl
  | cons c rest ih =>
    rw [List.cons_append,hexFrom,hexFrom]
    cases hexDigit c with
    | none => rfl
    | some d => exact ih _

theorem hexFrom_printHex (n : Nat) : hexFrom 0 (printHex n) = some n := by
  induction n using Nat.strong_induction_on with
  | _ n ih =>
    rw [printHex,Nat.toDigits_eq_if (by omega)]
    split
    · rename_i small
      rw [hexFrom,hexDigit_digit small]
      simp [hexFrom]
    · rename_i large
      have before := ih (n/16) (by omega)
      rw [printHex] at before
      rw [hexFrom_append,before,Option.bind_some,hexFrom,hexDigit_digit (Nat.mod_lt n (by omega)),Option.bind_some,hexFrom]
      congr 1
      omega

theorem printHex_digit (member : c ∈ printHex n) : ∃ d < 16, c = Nat.digitChar d := by
  induction n using Nat.strong_induction_on with
  | _ n ih =>
    rw [printHex,Nat.toDigits_eq_if (by omega)] at member
    split at member
    · rename_i small
      exact ⟨n,small,List.mem_singleton.mp member⟩
    · rename_i large
      rcases List.mem_append.mp member with front | last
      · exact ih (n/16) (by omega) front
      · exact ⟨n % 16,Nat.mod_lt n (by omega),List.mem_singleton.mp last⟩

theorem printHex_plain (member : c ∈ printHex n) : isWhitespace c = false ∧ c ≠ ';' ∧ c ≠ '}' ∧ c ≠ '+' := by
  obtain ⟨d,small,rfl⟩ := printHex_digit member
  interval_cases d <;> decide

theorem parseHex_printHex (fits : n < 2^width) : parseHex width (printHex n) = some n := by
  have plain : dropPlus (printHex n) = printHex n := by
    rw [dropPlus.eq_def]
    split
    · rename_i rest shape
      have first : '+' ∈ printHex n := by rw [shape]; exact List.mem_cons_self
      exact ((printHex_plain first).2.2.2 rfl).elim
    · rfl
  rw [parseHex,plain]
  split
  · rename_i empty
    exact (Nat.toDigits_ne_nil empty).elim
  · simp [hexFrom_printHex,fits]

end Library
