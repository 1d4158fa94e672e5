import LdapBer.Text

/-! Options on a command line.

An argument that starts with `-`, and is neither that alone nor starts with `--`, is a group
of options of one letter. A specification lists the letters, each followed by `:` if the
option takes a value; the value is the rest of the group or else the next argument. Each
step takes the first option that is left and removes it from the arguments. -/
namespace LdapBer.Options

inductive Kind where
  | flag
  | valued
deriving DecidableEq, Repr

/-- What a specification says of a letter. The colon is no letter. -/
def kind (letter : UInt8) : Bytes → Option Kind
  | [] => none
  | c :: spec =>
    if c = letter then
      if c = 58 then none else if spec.head? = some 58 then some .valued else some .flag
    else kind letter spec

/-- What a letter answers, which is a signed byte. -/
def letterNumber (letter : UInt8) : Int :=
  letter.toInt8.toInt

theorem letterNumber_inj {a b : UInt8} : letterNumber a = letterNumber b ↔ a = b := by
  constructor
  · intro h
    exact congrArg Int8.toUInt8 (Int8.toInt_inj.mp h)
  · exact congrArg letterNumber

/-- The outcome of a step, each with the arguments that remain. -/
inductive Step where
  | found (letter : UInt8) (value : Option Bytes) (args : List Bytes)
  | invalid (args : List Bytes)
  | finished (args : List Bytes)
deriving DecidableEq, Repr

namespace Step

def args : Step → List Bytes
  | found _ _ args | invalid args | finished args => args

def value : Step → Option Bytes
  | found _ value _ => value
  | invalid _ | finished _ => none

/-- What a step answers. The letter 0xFF answers what an invalid option does. -/
def number : Step → Int
  | found letter _ _ => letterNumber letter
  | invalid _ => -1
  | finished _ => 0

def isLast (step : Step) : Bool :=
  step.number = 0 || step.number = -1

/-- Puts arguments back in front. -/
def behind (kept : List Bytes) : Step → Step
  | found letter value args => found letter value (kept ++ args)
  | invalid args => invalid (kept ++ args)
  | finished args => finished (kept ++ args)

theorem behind_nil (step : Step) : step.behind [] = step := by
  cases step <;> rfl

theorem behind_behind (kept kept' : List Bytes) (step : Step) :
    (step.behind kept').behind kept = step.behind (kept ++ kept') := by
  cases step <;> simp [behind]

@[simp] theorem number_behind (kept : List Bytes) (step : Step) :
    (step.behind kept).number = step.number := by
  cases step <;> rfl

theorem behind_eq_found_iff {kept args : List Bytes} {step : Step} {letter : UInt8}
    {value : Option Bytes} :
    step.behind kept = found letter value args ↔
      ∃ left, step = found letter value left ∧ kept ++ left = args := by
  cases step <;> simp [behind, and_assoc]

end Step

/-- Puts what is left of a group back in front. -/
def putBack (group : Bytes) (args : List Bytes) : List Bytes :=
  if group.isEmpty then args else (45 :: group) :: args

/-- Takes the option `letter` off a group that goes on with `rest`. -/
def takeOption (spec : Bytes) (letter : UInt8) (rest : Bytes) (args : List Bytes) : Step :=
  match kind letter spec with
  | none => .invalid ((45 :: letter :: rest) :: args)
  | some .flag => .found letter none (putBack rest args)
  | some .valued =>
    if !rest.isEmpty then .found letter (some rest) args
    else
      match args with
      | value :: args => .found letter (some value) args
      | [] => .invalid [[45, letter]]

/-- Takes the first option. -/
def next (spec : Bytes) : List Bytes → Step
  | [] => .finished []
  | arg :: args =>
    match arg with
    | 45 :: letter :: rest =>
      if letter = 45 then (next spec args).behind [arg] else takeOption spec letter rest args
    | _ => (next spec args).behind [arg]

/-- How much there is left to take. -/
def weight (args : List Bytes) : Nat :=
  total (args.map fun a => a.length + 1)

@[simp] theorem weight_cons (arg : Bytes) (args : List Bytes) :
    weight (arg :: args) = arg.length + 1 + weight args :=
  rfl

theorem weight_putBack_le (group : Bytes) (args : List Bytes) :
    weight (putBack group args) ≤ group.length + 2 + weight args := by
  unfold putBack
  split
  · exact Nat.le_add_left _ _
  · simp

theorem weight_lt_of_takeOption {spec rest : Bytes} {letter l : UInt8} {value : Option Bytes}
    {args left : List Bytes} (h : takeOption spec letter rest args = .found l value left) :
    weight left < weight ((45 :: letter :: rest) :: args) := by
  have hback := weight_putBack_le rest args
  simp only [weight_cons, List.length_cons]
  unfold takeOption at h
  split at h
  · cases h
  · cases h
    omega
  · split at h
    · cases h
      omega
    · split at h
      · cases h
        simp only [weight_cons]
        omega
      · cases h

/-- Every option that is found leaves less to take. -/
theorem weight_lt_of_next {spec : Bytes} {args left : List Bytes} {letter : UInt8}
    {value : Option Bytes} (h : next spec args = .found letter value left) :
    weight left < weight args := by
  induction args generalizing left with
  | nil => cases h
  | cons arg args ih =>
    have hbehind : (next spec args).behind [arg] = .found letter value left →
        weight left < weight (arg :: args) := by
      intro h
      obtain ⟨left, hnext, rfl⟩ := Step.behind_eq_found_iff.mp h
      have := ih hnext
      simpa using this
    unfold next at h
    split at h
    · split at h
      · exact hbehind h
      · exact weight_lt_of_takeOption h
    · exact hbehind h

/-- All steps up to the one that answers 0 or −1. -/
def steps (spec : Bytes) (args : List Bytes) : List Step :=
  let step := next spec args
  if step.isLast then [step] else step :: steps spec step.args
termination_by weight args
decreasing_by
  rename_i h
  cases hnext : next spec args with
  | found letter value left => exact weight_lt_of_next hnext
  | invalid left => simp [step, hnext, Step.isLast, Step.number] at h
  | finished left => simp [step, hnext, Step.isLast, Step.number] at h

/-- Takes the first argument that is just `word`, and tells whether there was one. -/
def takeWord (word : Bytes) (args : List Bytes) : Bool × List Bytes :=
  (args.contains word, args.erase word)

/-! ### Sizes -/

inductive SizeError where
  | notNumber (option value : Bytes)
  | trailing (option value : Bytes)
deriving DecidableEq, Repr

def SizeError.message : SizeError → Bytes
  | notNumber option value =>
    ascii "The value of the option " ++ option ++ ascii " must be a number, got " ++
      quoted value
  | trailing option value =>
    ascii "Trailing characters in the value of the option " ++ option ++ ascii ": " ++
      quoted value

def sizeModulus : Nat := 0x10000000000000000

/-- The unsigned number at the front, after blanks and a sign, and what follows it. A number
that is too large counts as the largest; a negative one is taken from 2^64. -/
def readNumber (s : Bytes) : Option (Nat × Bytes) :=
  let s := s.dropWhile isBlank
  let isNegative := s.head? = some 45
  let s := if isNegative || s.head? = some 43 then s.drop 1 else s
  let digits := s.takeWhile isDigit
  let n := ofDigits digits
  if digits.isEmpty then none
  else if sizeModulus ≤ n then some (sizeModulus - 1, s.dropWhile isDigit)
  else
    some (if isNegative then (sizeModulus - n) % sizeModulus else n, s.dropWhile isDigit)

/-- The factor that a letter behind a number stands for, and what follows it. -/
def readFactor : Bytes → Nat × Bytes
  | [] => (1, [])
  | c :: s =>
    if c = 107 ∨ c = 75 then (1024, s)
    else if c = 109 ∨ c = 77 then (1024 * 1024, s)
    else (1, c :: s)

/-- Reads the value of an option as a size, modulo 2^64. -/
def readSize (option value : Bytes) : Except SizeError Nat :=
  match readNumber value with
  | none => .error (.notNumber option value)
  | some (n, s) =>
    let (factor, rest) := readFactor s
    if rest.isEmpty then .ok (n * factor % sizeModulus) else .error (.trailing option value)

end LdapBer.Options
