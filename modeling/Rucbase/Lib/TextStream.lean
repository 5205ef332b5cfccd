import Mathlib.Data.List.TakeWhile
import Mathlib.Control.Monad.Basic

/-! Values in a text, separated by white space. A reader skips the white space before a value
and stops behind the value; it fails if there is none. -/
namespace Rucbase.Lib.TextStream

/-- `isspace` in the C locale. -/
def isSpace (c : Char) : Bool := c.toNat == 32 || (9 ≤ c.toNat && c.toNat ≤ 13)

abbrev Reader (α : Type) : Type := StateT (List Char) Option α

def skipSpace : Reader Unit := fun text => some ((),text.dropWhile isSpace)

/-- The next characters that pass the test, at least one. -/
def readRun (test : Char → Bool) : Reader (List Char) := fun text =>
  if text.takeWhile test = [] then none else some (text.takeWhile test,text.dropWhile test)

def readWord : Reader (List Char) := do
  skipSpace
  readRun fun c => !isSpace c

def readDigits : Reader Nat := do
  let digits ← readRun Char.isDigit
  pure (Nat.ofDigitChars 10 digits 0)

def readNat : Reader Nat := do
  skipSpace
  readDigits

/-- Whether a minus sign comes next. -/
def readSign : Reader Bool
  | '-' :: text => some (true,text)
  | '+' :: text => some (false,text)
  | text => some (false,text)

def readInt : Reader Int := do
  skipSpace
  let negative ← readSign
  let n ← readDigits
  pure (if negative then -(n : Int) else n)

/-- A flag is written as 0 or 1. -/
def readBool : Reader Bool := do
  let n ← readInt
  if n = 0 then pure false else if n = 1 then pure true else failure

def readMany {α : Type} (item : Reader α) : Nat → Reader (List α)
  | 0 => pure []
  | n + 1 => do
    let first ← item
    let rest ← readMany item n
    pure (first :: rest)

def natText (n : Nat) : List Char := Nat.toDigits 10 n

def intText : Int → List Char
  | .ofNat n => natText n
  | .negSucc n => '-' :: natText (n + 1)

def boolText (b : Bool) : List Char := if b then ['1'] else ['0']

variable {α β : Type}

/-- The reader takes `a` off the text and leaves `rest`, with any white space around. -/
def Eats (reader : Reader α) (text : List Char) (a : α) (rest : List Char) : Prop :=
  ∀ before, (∀ c ∈ before, isSpace c) → ∃ after, (∀ c ∈ after, isSpace c) ∧
    reader (before ++ text) = some (a,after ++ rest)

variable {c : Char} {rest text : List Char} {reader : Reader α} {a : α}

theorem bind_some (next : α → Reader β) (step : reader text = some (a,rest)) : (reader >>= next) text = next a rest := by
  show (reader text).bind (fun read => next read.1 read.2) = _
  rw [step]
  rfl

theorem Eats.pure (a : α) (text : List Char) : Eats (pure a) text a text :=
  fun before spaces => ⟨before,spaces,rfl⟩

theorem Eats.bind {next : α → Reader β} {middle : List Char} {b : β} (first : Eats reader text a middle)
    (second : Eats (next a) middle b rest) :
    Eats (reader >>= next) text b rest := by
  intro before spaces
  obtain ⟨between,moreSpaces,step⟩ := first before spaces
  obtain ⟨after,lastSpaces,final⟩ := second between moreSpaces
  exact ⟨after,lastSpaces,(bind_some next step).trans final⟩

theorem Eats.space (space : isSpace c) (eats : Eats reader text a (c :: rest)) : Eats reader text a rest := by
  intro before spaces
  obtain ⟨after,others,step⟩ := eats before spaces
  exact ⟨after ++ [c],List.forall_mem_append.mpr ⟨others,by simpa using space⟩,by simpa using step⟩

theorem dropWhile_spaces {before : List Char} (spaces : ∀ c ∈ before, isSpace c)
    (start : text.head?.all fun c => !isSpace c) : (before ++ text).dropWhile isSpace = text := by
  rw [List.dropWhile_append_of_pos spaces]
  cases text with
  | nil => rfl
  | cons c text => simpa using start

theorem eats_skip (start : text.head?.all fun d => !isSpace d) (space : isSpace c) (step : reader text = some (a,c :: rest)) :
    Eats (do skipSpace; reader) text a rest := by
  intro before spaces
  refine ⟨[c],by simpa using space,?_⟩
  have skipped : skipSpace (before ++ text) = some ((),text) := by rw [skipSpace,dropWhile_spaces spaces start]
  exact (bind_some _ skipped).trans step

theorem readRun_to {test : Char → Bool} {word : List Char} (some : word ≠ []) (inside : ∀ d ∈ word, test d = true)
    (outside : test c = false) :
    readRun test (word ++ c :: rest) = .some (word,c :: rest) := by
  rw [readRun,List.takeWhile_append_of_pos inside,List.dropWhile_append_of_pos inside]
  simp [outside,some]

theorem eats_word {word : List Char} (some : word ≠ []) (inside : ∀ d ∈ word, isSpace d = false) (space : isSpace c) :
    Eats readWord (word ++ c :: rest) word rest := by
  refine eats_skip ?_ space (readRun_to some (fun d member => by simp [inside d member]) (by simp [space]))
  obtain ⟨d,more,rfl⟩ := List.exists_cons_of_ne_nil some
  simpa using inside d List.mem_cons_self

theorem space_not_digit (space : isSpace c) : c.isDigit = false := by
  by_contra digit
  have range := Char.isDigit_iff_toNat.mp (eq_true_of_ne_false digit)
  simp only [isSpace,Bool.or_eq_true,beq_iff_eq,Bool.and_eq_true,decide_eq_true_eq] at space
  have low : '0'.toNat = 48 := rfl
  omega

theorem digit_not_space (digit : c.isDigit) : isSpace c = false := by
  by_contra space
  exact absurd digit (by simp [space_not_digit (eq_true_of_ne_false space)])

theorem readDigits_to (n : Nat) (space : isSpace c) : readDigits (natText n ++ c :: rest) = some (n,c :: rest) := by
  have digits : ∀ d ∈ natText n, d.isDigit = true := fun d member =>
    Nat.isDigit_of_mem_toDigits (by decide) (by decide) member
  refine (bind_some _ (readRun_to Nat.toDigits_ne_nil digits (space_not_digit space))).trans ?_
  rw [Nat.ofDigitChars_ten_toDigits]
  rfl

theorem natText_start (n : Nat) (rest : List Char) : ∃ d more, natText n ++ rest = d :: more ∧ d.isDigit := by
  obtain ⟨d,more,text⟩ := List.exists_cons_of_ne_nil (Nat.toDigits_ne_nil (n := n) (b := 10))
  refine ⟨d,more ++ rest,by rw [natText,text]; rfl,?_⟩
  exact Nat.isDigit_of_mem_toDigits (by decide) (by decide) (text ▸ List.mem_cons_self)

theorem eats_nat (n : Nat) (space : isSpace c) : Eats readNat (natText n ++ c :: rest) n rest := by
  refine eats_skip ?_ space (readDigits_to n space)
  obtain ⟨d,more,text,digit⟩ := natText_start n (c :: rest)
  rw [text]
  simpa using digit_not_space digit

theorem readSign_digit {d : Char} (digit : d.isDigit) (text : List Char) :
    readSign (d :: text) = some (false,d :: text) := by
  have minus : d ≠ '-' := by rintro rfl; exact absurd digit (by decide)
  have plus : d ≠ '+' := by rintro rfl; exact absurd digit (by decide)
  simp [readSign,minus,plus]

theorem eats_int (n : Int) (space : isSpace c) : Eats readInt (intText n ++ c :: rest) n rest := by
  cases n with
  | ofNat n =>
    obtain ⟨d,more,text,digit⟩ := natText_start n (c :: rest)
    refine eats_skip ?_ space ?_
    · rw [intText,text]
      simpa using digit_not_space digit
    · have sign : readSign (natText n ++ c :: rest) = some (false,natText n ++ c :: rest) := by
        rw [text,readSign_digit digit]
      exact (bind_some _ sign).trans ((bind_some _ (readDigits_to n space)).trans rfl)
  | negSucc n =>
    refine eats_skip rfl space ?_
    exact (bind_some _ rfl).trans ((bind_some _ (readDigits_to (n + 1) space)).trans rfl)

theorem eats_bool (b : Bool) (space : isSpace c) : Eats readBool (boolText b ++ c :: rest) b rest := by
  cases b with
  | false => exact (eats_int 0 space).bind (.pure _ _)
  | true => exact (eats_int 1 space).bind (.pure _ _)

theorem eats_many (write : α → List Char) (sep : Char) (items : List α) (rest : List Char)
    (each : ∀ a ∈ items, ∀ rest, Eats reader (write a ++ sep :: rest) a rest) :
    Eats (readMany reader items.length) (items.flatMap (fun a => write a ++ [sep]) ++ rest) items rest := by
  induction items with
  | nil => exact .pure _ _
  | cons a items ih =>
    obtain ⟨first,others⟩ := List.forall_mem_cons.mp each
    rw [List.flatMap_cons,List.append_assoc,List.append_assoc,List.singleton_append]
    exact (first _).bind ((ih others).bind (.pure _ _))

theorem eats_many_after (write : α → List Char) {sep : Char} (space : isSpace sep) (items : List α) (rest : List Char)
    (each : ∀ a ∈ items, ∀ d, isSpace d → ∀ rest, Eats reader (write a ++ d :: rest) a rest) (last : isSpace c) :
    ∃ d text, items.flatMap (fun a => sep :: write a) ++ c :: rest = d :: text ∧ isSpace d ∧
      Eats (readMany reader items.length) text items rest := by
  induction items with
  | nil => exact ⟨c,rest,rfl,last,.pure _ _⟩
  | cons a items ih =>
    obtain ⟨first,others⟩ := List.forall_mem_cons.mp each
    obtain ⟨d,text,same,spaceD,eats⟩ := ih others
    refine ⟨sep,write a ++ d :: text,?_,space,(first d spaceD _).bind (eats.bind (.pure _ _))⟩
    rw [List.flatMap_cons,List.append_assoc,same]
    rfl

end Rucbase.Lib.TextStream
