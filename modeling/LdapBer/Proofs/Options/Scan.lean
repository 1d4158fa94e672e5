import LdapBer.Options

/-! Options as they stand in the arguments.

A scan reads the arguments once from left to right, and a group letter by letter. What it does at a
letter is a parameter (`Reading`). A specification lists flags and letters with values (`listed`),
but the steps that take options one by one read two letters in another way (`reading`). A scan that
meets neither of them in such a place is the same with both (`scan_reading_of_isPlain`). -/
namespace LdapBer.Options

/-! ### Letters -/

/-- What is done at a letter of a group. -/
inductive Reading where
  | flag
  | valued
  | unknown
  /-- The group ends here. The letter and all behind it are left as an argument. -/
  | left
deriving DecidableEq, Repr

def Reading.kind : Reading → Option Kind
  | flag => some .flag
  | valued => some .valued
  | unknown | left => none

/-- What a specification says of a letter where it first lists it. -/
def listed (spec : Bytes) (letter : UInt8) : Reading :=
  if letter = 58 then .unknown
  else
    match spec.dropWhile (· != letter) with
    | [] => .unknown
    | _ :: behind => if behind.head? = some 58 then .valued else .flag

/-- What the steps do at a letter. A hyphen behind a flag is not read, because what is left of the
group then starts with two. The letter 0xFF answers what an unknown one does. -/
def reading (spec : Bytes) (letter : UInt8) : Reading :=
  if letter = 45 then .left else if letter = 0xFF then .unknown else listed spec letter

theorem kind_eq (spec : Bytes) (letter : UInt8) : kind letter spec = (listed spec letter).kind := by
  induction spec with
  | nil =>
    unfold listed
    split <;> rfl
  | cons c spec ih =>
    by_cases hc : c = letter
    · subst hc
      simp only [kind, listed, List.dropWhile_cons, bne_self_eq_false, Bool.false_eq_true, if_false,
        if_true]
      split
      · rfl
      · split <;> rfl
    · have hne : (c != letter) = true := by simpa using hc
      simp only [kind, if_neg hc, ih, listed, List.dropWhile_cons, hne, if_true]

theorem mem_of_kind {spec : Bytes} {letter : UInt8} {k : Kind} (h : kind letter spec = some k) :
    letter ∈ spec := by
  induction spec with
  | nil => cases h
  | cons c spec ih =>
    by_cases hc : c = letter
    · simp [hc]
    · exact List.mem_cons_of_mem c (ih (by simpa [kind, hc] using h))

theorem listed_ne_left (spec : Bytes) (letter : UInt8) : listed spec letter ≠ .left := by
  unfold listed
  split
  · nofun
  · split
    · nofun
    · split <;> nofun

theorem reading_hyphen (spec : Bytes) : reading spec 45 = .left :=
  if_pos rfl

theorem reading_of_ne {spec : Bytes} {letter : UInt8} (hhyphen : letter ≠ 45)
    (hlast : letter ≠ 0xFF) : reading spec letter = listed spec letter := by
  rw [reading, if_neg hhyphen, if_neg hlast]

theorem eq_hyphen_of_reading {spec : Bytes} {letter : UInt8} (h : reading spec letter = .left) :
    letter = 45 := by
  unfold reading at h
  split at h
  · assumption
  · split at h
    · cases h
    · exact absurd h (listed_ne_left spec letter)

theorem kind_of_reading {spec : Bytes} {letter : UInt8} {k : Kind}
    (h : (reading spec letter).kind = some k) :
    letter ≠ 45 ∧ letter ≠ 0xFF ∧ kind letter spec = some k := by
  unfold reading at h
  split at h
  · cases h
  · next hhyphen =>
    split at h
    · cases h
    · next hlast => exact ⟨hhyphen, hlast, (kind_eq spec letter).trans h⟩

theorem kind_or_last_of_unknown {spec : Bytes} {letter : UInt8}
    (h : reading spec letter = .unknown) : letter = 0xFF ∨ kind letter spec = none := by
  unfold reading at h
  split at h
  · cases h
  · split at h
    · exact .inl ‹_›
    · exact .inr ((kind_eq spec letter).trans (congrArg Reading.kind h))

/-! ### Scans -/

/-- An argument that starts with `-` and is neither that alone nor starts with `--`. -/
def isGroup : Bytes → Bool
  | 45 :: letter :: _ => letter != 45
  | _ => false

inductive Role where
  | group
  | value
  | operand
  /-- What is left of a group. -/
  | rest
deriving DecidableEq, Repr

def Role.remains : Role → Bool
  | group | value => false
  | operand | rest => true

structure Word where
  text : Bytes
  role : Role
deriving DecidableEq, Repr

/-- An argument may be a value whatever it is. -/
def Word.HasRole (w : Word) : Prop :=
  match w.role with
  | .group => isGroup w.text = true
  | .value => True
  | .operand => isGroup w.text = false
  | .rest => False

/-- What a scan finds. -/
structure Scan where
  options : List (UInt8 × Option Bytes) := []
  words : List Word := []
  /-- The letter that ends the scan because it is unknown or lacks its value. -/
  fault : Option UInt8 := none
deriving DecidableEq, Repr

namespace Scan

def take (letter : UInt8) (value : Option Bytes) (s : Scan) : Scan :=
  {s with options := (letter, value) :: s.options}

def add (text : Bytes) (role : Role) (s : Scan) : Scan :=
  {s with words := ⟨text, role⟩ :: s.words}

/-- The arguments that remain behind a scan. -/
def remaining (s : Scan) : List Bytes :=
  (s.words.filter (·.role.remains)).map Word.text

end Scan

/-- Scans what is left of a group and the arguments behind it. -/
def scan (read : UInt8 → Reading) : Bytes → List Bytes → Scan
  | [], [] => {}
  | [], arg :: args =>
    if isGroup arg then (scan read arg.tail args).add arg .group
    else (scan read [] args).add arg .operand
  | letter :: rest, args =>
    match read letter with
    | .flag => (scan read rest args).take letter none
    | .valued =>
      if rest ≠ [] then (scan read [] args).take letter (some rest)
      else
        match args with
        | [] => {fault := some letter}
        | value :: args => ((scan read [] args).add value .value).take letter (some value)
    | .unknown => {fault := some letter}
    | .left => (scan read [] args).add (45 :: letter :: rest) .rest
termination_by group args => group.length + weight args
decreasing_by all_goals simp; try omega

/-- The scan that a specification asks for. -/
def scanArgs (spec : Bytes) (args : List Bytes) : Scan :=
  scan (listed spec) [] args

section Cases
variable {read : UInt8 → Reading} {letter : UInt8} {arg rest : Bytes} {args : List Bytes}

theorem scan_group (h : isGroup arg = true) :
    scan read [] (arg :: args) = (scan read arg.tail args).add arg .group := by
  rw [scan, if_pos h]

theorem scan_operand (h : isGroup arg = false) :
    scan read [] (arg :: args) = (scan read [] args).add arg .operand := by
  simp [scan, h]

theorem scan_flag (h : read letter = .flag) :
    scan read (letter :: rest) args = (scan read rest args).take letter none := by
  simp [scan.eq_def read (letter :: rest), h]

theorem scan_valued (h : read letter = .valued) (hrest : rest ≠ []) :
    scan read (letter :: rest) args = (scan read [] args).take letter (some rest) := by
  simp [scan.eq_def read (letter :: rest), h, hrest]

theorem scan_valued_arg (h : read letter = .valued) (value : Bytes) :
    scan read [letter] (value :: args) =
      ((scan read [] args).add value .value).take letter (some value) := by
  simp [scan.eq_def read [letter], h]

theorem scan_missing (h : read letter = .valued) :
    scan read [letter] [] = {fault := some letter} := by
  simp [scan.eq_def read [letter], h]

theorem scan_unknown (h : read letter = .unknown) :
    scan read (letter :: rest) args = {fault := some letter} := by
  simp [scan.eq_def read (letter :: rest), h]

end Cases

/-- Only letters that stand for options are taken. -/
theorem kind_of_mem_options {read : UInt8 → Reading} {group : Bytes} {args : List Bytes}
    {o : UInt8 × Option Bytes} (h : o ∈ (scan read group args).options) :
    ∃ k, (read o.1).kind = some k := by
  fun_induction scan read group args with
  | case1 => cases h
  | case2 arg args _ ih => exact ih h
  | case3 arg args _ ih => exact ih h
  | case4 letter rest args hread ih =>
    rcases List.mem_cons.mp h with rfl | h
    · exact ⟨.flag, congrArg Reading.kind hread⟩
    · exact ih h
  | case5 letter rest args hread _ ih =>
    rcases List.mem_cons.mp h with rfl | h
    · exact ⟨.valued, congrArg Reading.kind hread⟩
    · exact ih h
  | case6 => cases h
  | case7 letter rest hread _ value args ih =>
    rcases List.mem_cons.mp h with rfl | h
    · exact ⟨.valued, congrArg Reading.kind hread⟩
    · exact ih h
  | case8 => cases h
  | case9 letter rest args _ ih => exact ih h

/-- Without letters that are left, the words of a scan are the arguments. -/
theorem words_eq {read : UInt8 → Reading} (hread : ∀ letter, read letter ≠ .left)
    {group : Bytes} {args : List Bytes} (h : (scan read group args).fault = none) :
    (scan read group args).words.map Word.text = args := by
  fun_induction scan read group args with
  | case1 => rfl
  | case2 arg args _ ih => exact congrArg (arg :: ·) (ih h)
  | case3 arg args _ ih => exact congrArg (arg :: ·) (ih h)
  | case4 letter rest args _ ih => exact ih h
  | case5 letter rest args _ _ ih => exact ih h
  | case6 => cases h
  | case7 letter rest _ _ value args ih => exact congrArg (value :: ·) (ih h)
  | case8 => cases h
  | case9 letter rest args hleft _ => exact absurd hleft (hread letter)

theorem hasRole_of_mem_words {read : UInt8 → Reading} (hread : ∀ letter, read letter ≠ .left)
    {group : Bytes} {args : List Bytes} {w : Word} (h : w ∈ (scan read group args).words) :
    w.HasRole := by
  fun_induction scan read group args with
  | case1 => cases h
  | case2 arg args hgroup ih =>
    rcases List.mem_cons.mp h with rfl | h
    · exact hgroup
    · exact ih h
  | case3 arg args hgroup ih =>
    rcases List.mem_cons.mp h with rfl | h
    · exact eq_false_of_ne_true hgroup
    · exact ih h
  | case4 letter rest args _ ih => exact ih h
  | case5 letter rest args _ _ ih => exact ih h
  | case6 => cases h
  | case7 letter rest _ _ value args ih =>
    rcases List.mem_cons.mp h with rfl | h
    · trivial
    · exact ih h
  | case8 => cases h
  | case9 letter rest args hleft _ => exact absurd hleft (hread letter)

/-- Behind the scan that a specification asks for, the operands remain. -/
theorem remaining_scanArgs (spec : Bytes) (args : List Bytes) :
    (scanArgs spec args).remaining =
      ((scanArgs spec args).words.filter (·.role = .operand)).map Word.text := by
  unfold Scan.remaining
  congr 1
  refine List.filter_congr fun w hw => ?_
  have hrole := hasRole_of_mem_words (listed_ne_left spec) hw
  cases hw : w.role <;> simp_all [Word.HasRole, Role.remains]

/-! ### Letters that are read in another way -/

/-- A scan that meets neither a hyphen in a group nor 0xFF as an option. -/
structure Scan.IsPlain (s : Scan) : Prop where
  options : ∀ o ∈ s.options, o.1 ≠ 45 ∧ o.1 ≠ 0xFF
  fault : s.fault ≠ some 45

instance (s : Scan) : Decidable s.IsPlain :=
  decidable_of_iff ((∀ o ∈ s.options, o.1 ≠ 45 ∧ o.1 ≠ 0xFF) ∧ s.fault ≠ some 45)
    ⟨fun h => ⟨h.1, h.2⟩, fun h => ⟨h.options, h.fault⟩⟩

theorem Scan.IsPlain.of_take {s : Scan} {letter : UInt8} {value : Option Bytes}
    (h : (s.take letter value).IsPlain) : letter ≠ 45 ∧ letter ≠ 0xFF ∧ s.IsPlain := by
  obtain ⟨hoptions, hfault⟩ := h
  obtain ⟨⟨hhyphen, hlast⟩, hoptions⟩ := List.forall_mem_cons.mp hoptions
  exact ⟨hhyphen, hlast, hoptions, hfault⟩

theorem Scan.IsPlain.of_add {s : Scan} {text : Bytes} {role : Role}
    (h : (s.add text role).IsPlain) : s.IsPlain :=
  ⟨h.options, h.fault⟩

theorem scan_reading_of_isPlain {spec group : Bytes} {args : List Bytes}
    (h : (scan (listed spec) group args).IsPlain) :
    scan (reading spec) group args = scan (listed spec) group args := by
  fun_induction scan (listed spec) group args with
  | case1 => rw [scan]
  | case2 arg args hgroup ih => rw [scan_group hgroup, ih h.of_add]
  | case3 arg args hgroup ih => rw [scan_operand (eq_false_of_ne_true hgroup), ih h.of_add]
  | case4 letter rest args hread ih =>
    obtain ⟨hhyphen, hlast, h⟩ := h.of_take
    rw [scan_flag ((reading_of_ne hhyphen hlast).trans hread), ih h]
  | case5 letter rest args hread hrest ih =>
    obtain ⟨hhyphen, hlast, h⟩ := h.of_take
    rw [scan_valued ((reading_of_ne hhyphen hlast).trans hread) hrest, ih h]
  | case6 letter rest hread hrest =>
    obtain rfl : rest = [] := Classical.not_not.mp hrest
    have hhyphen : letter ≠ 45 := fun heq => h.fault (congrArg some heq)
    by_cases hlast : letter = 0xFF
    · exact scan_unknown (by rw [reading, if_neg hhyphen, if_pos hlast])
    · exact scan_missing ((reading_of_ne hhyphen hlast).trans hread)
  | case7 letter rest hread hrest value args ih =>
    obtain rfl : rest = [] := Classical.not_not.mp hrest
    obtain ⟨hhyphen, hlast, h⟩ := h.of_take
    rw [scan_valued_arg ((reading_of_ne hhyphen hlast).trans hread), ih h.of_add]
  | case8 letter rest args hread =>
    have hhyphen : letter ≠ 45 := fun heq => h.fault (congrArg some heq)
    refine scan_unknown ?_
    rw [reading, if_neg hhyphen, hread, ite_self]
  | case9 letter rest args hread _ => exact absurd hread (listed_ne_left spec letter)

end LdapBer.Options
