import LdapBer.Proofs.Options.Scan

/-! Options that are taken one by one.

Every step searches the arguments from the start for the first group, so what stands in front of it
are operands. This is what carries the steps: behind operands, all of them up to the last one are
one scan of what is left of a group and of the arguments that follow (`observe_scan`). So they are
the scan that the specification asks for where that scan is plain (`steps_scan`). -/
namespace LdapBer.Options

/-! ### Runs -/

/-- The steps that are taken until one answers 0 or −1. -/
inductive Run (spec : Bytes) : List Bytes → List Step → Prop where
  | last {args : List Bytes} (h : (next spec args).number = 0 ∨ (next spec args).number = -1) :
      Run spec args [next spec args]
  | more {args : List Bytes} {run : List Step}
      (h : ¬ ((next spec args).number = 0 ∨ (next spec args).number = -1))
      (behind : Run spec (next spec args).args run) : Run spec args (next spec args :: run)

theorem isLast_iff {step : Step} : step.isLast = true ↔ step.number = 0 ∨ step.number = -1 := by
  simp [Step.isLast]

theorem steps_of_last {spec : Bytes} {args : List Bytes}
    (h : (next spec args).number = 0 ∨ (next spec args).number = -1) :
    steps spec args = [next spec args] := by
  rw [steps]
  exact if_pos (isLast_iff.mpr h)

theorem steps_of_more {spec : Bytes} {args : List Bytes}
    (h : ¬ ((next spec args).number = 0 ∨ (next spec args).number = -1)) :
    steps spec args = next spec args :: steps spec (next spec args).args := by
  rw [steps]
  exact if_neg fun hlast => h (isLast_iff.mp hlast)

theorem run_steps (spec : Bytes) (args : List Bytes) : Run spec args (steps spec args) := by
  fun_induction steps spec args with
  | case1 args step hlast => exact .last (isLast_iff.mp hlast)
  | case2 args step hmore ih => exact .more (fun h => hmore (isLast_iff.mpr h)) ih

/-- Whatever the arguments, the steps come to an end, and in one way only. -/
theorem run_iff {spec : Bytes} {args : List Bytes} {run : List Step} :
    Run spec args run ↔ run = steps spec args := by
  constructor
  · intro h
    induction h with
    | last h => rw [steps_of_last h]
    | more h _ ih => rw [steps_of_more h, ih]
  · rintro rfl
    exact run_steps spec args

/-! ### What is seen -/

/-- The options as they are answered, with their values, and the arguments that remain if the last
answer is 0. -/
structure Seen where
  options : List (Int × Option Bytes)
  remaining : Option (List Bytes)
deriving DecidableEq, Repr

namespace Seen

def take (number : Int) (value : Option Bytes) (s : Seen) : Seen :=
  {s with options := (number, value) :: s.options}

def behind (kept : List Bytes) (s : Seen) : Seen :=
  {s with remaining := s.remaining.map (kept ++ ·)}

theorem behind_nil (s : Seen) : s.behind [] = s := by
  cases s with
  | mk options remaining => cases remaining <;> rfl

theorem behind_behind (kept kept' : List Bytes) (s : Seen) :
    (s.behind kept').behind kept = s.behind (kept ++ kept') := by
  cases s with
  | mk options remaining => cases remaining <;> simp [behind]

end Seen

/-- What is seen of steps, up to the last one. -/
def observe : List Step → Seen
  | [] => ⟨[], none⟩
  | step :: run =>
    if step.number = 0 then ⟨[], some step.args⟩
    else if step.number = -1 then ⟨[], none⟩
    else (observe run).take step.number step.value

theorem observe_of_finished {spec : Bytes} {args left : List Bytes}
    (h : next spec args = .finished left) : observe (steps spec args) = ⟨[], some left⟩ := by
  rw [steps_of_last (by rw [h]; exact .inl rfl), h]
  rfl

theorem observe_of_neg_one {spec : Bytes} {args : List Bytes} (h : (next spec args).number = -1) :
    observe (steps spec args) = ⟨[], none⟩ := by
  rw [steps_of_last (.inr h), observe, if_neg (by omega), if_pos h]

theorem observe_of_found {spec : Bytes} {args left : List Bytes} {letter : UInt8}
    {value : Option Bytes} (h : next spec args = .found letter value left)
    (hzero : letterNumber letter ≠ 0) (hone : letterNumber letter ≠ -1) :
    observe (steps spec args) =
      (observe (steps spec left)).take (letterNumber letter) value := by
  rw [steps_of_more (by rw [h]; exact fun hlast => hlast.elim hzero hone), h]
  exact (if_neg hzero).trans (if_neg hone)

namespace Scan

def seen (s : Scan) : Seen where
  options := s.options.map fun o => (letterNumber o.1, o.2)
  remaining := if s.fault = none then some s.remaining else none

theorem seen_take (letter : UInt8) (value : Option Bytes) (s : Scan) :
    (s.take letter value).seen = s.seen.take (letterNumber letter) value :=
  rfl

theorem seen_add_of_remains (text : Bytes) {role : Role} (h : role.remains = true) (s : Scan) :
    (s.add text role).seen = s.seen.behind [text] := by
  cases hfault : s.fault <;> simp [seen, remaining, add, Seen.behind, h, hfault]

theorem seen_add_of_not_remains (text : Bytes) {role : Role} (h : role.remains = false)
    (s : Scan) : (s.add text role).seen = s.seen := by
  simp [seen, remaining, add, h]

end Scan

/-! ### Steps behind operands -/

def AreOperands (args : List Bytes) : Prop :=
  ∀ arg ∈ args, isGroup arg = false

theorem areOperands_nil : AreOperands [] :=
  List.forall_mem_nil _

theorem AreOperands.concat {kept : List Bytes} {arg : Bytes} (hkept : AreOperands kept)
    (h : isGroup arg = false) : AreOperands (kept ++ [arg]) := by
  simpa [AreOperands, or_imp, forall_and] using And.intro hkept h

section Next
variable {spec : Bytes} {kept : List Bytes}

theorem next_of_operand {arg : Bytes} (h : isGroup arg = false) (args : List Bytes) :
    next spec (arg :: args) = (next spec args).behind [arg] := by
  rw [next.eq_def]
  dsimp only
  split
  · rw [if_pos (by simpa [isGroup] using h)]
  · rfl

/-- A step passes over operands. -/
theorem next_append (h : AreOperands kept) (args : List Bytes) :
    next spec (kept ++ args) = (next spec args).behind kept := by
  induction kept with
  | nil => exact (Step.behind_nil _).symm
  | cons arg kept ih =>
    obtain ⟨harg, hkept⟩ := List.forall_mem_cons.mp h
    rw [List.cons_append, next_of_operand harg, ih hkept, Step.behind_behind]
    rfl

theorem next_letter (hkept : AreOperands kept) {letter : UInt8}
    (hletter : letter ≠ 45) (rest : Bytes) (args : List Bytes) :
    next spec (kept ++ putBack (letter :: rest) args) =
      (takeOption spec letter rest args).behind kept := by
  rw [next_append hkept]
  simp [putBack, next, hletter]

theorem next_flag (hkept : AreOperands kept) {letter : UInt8}
    (h : reading spec letter = .flag) (rest : Bytes) (args : List Bytes) :
    next spec (kept ++ putBack (letter :: rest) args) =
      .found letter none (kept ++ putBack rest args) := by
  obtain ⟨hhyphen, -, hkind⟩ := kind_of_reading (congrArg Reading.kind h)
  rw [next_letter hkept hhyphen]
  simp [takeOption, hkind, Step.behind]

theorem next_valued (hkept : AreOperands kept) {letter : UInt8}
    (h : reading spec letter = .valued) {rest : Bytes} (hrest : rest ≠ []) (args : List Bytes) :
    next spec (kept ++ putBack (letter :: rest) args) =
      .found letter (some rest) (kept ++ args) := by
  obtain ⟨hhyphen, -, hkind⟩ := kind_of_reading (congrArg Reading.kind h)
  rw [next_letter hkept hhyphen]
  simp [takeOption, hkind, hrest, Step.behind]

theorem next_valued_arg (hkept : AreOperands kept) {letter : UInt8}
    (h : reading spec letter = .valued) (value : Bytes) (args : List Bytes) :
    next spec (kept ++ putBack [letter] (value :: args)) =
      .found letter (some value) (kept ++ args) := by
  obtain ⟨hhyphen, -, hkind⟩ := kind_of_reading (congrArg Reading.kind h)
  rw [next_letter hkept hhyphen]
  simp [takeOption, hkind, Step.behind]

theorem number_of_missing (hkept : AreOperands kept) {letter : UInt8}
    (h : reading spec letter = .valued) :
    (next spec (kept ++ putBack [letter] [])).number = -1 := by
  obtain ⟨hhyphen, -, hkind⟩ := kind_of_reading (congrArg Reading.kind h)
  rw [next_letter hkept hhyphen, Step.number_behind]
  simp [takeOption, hkind, Step.number]

theorem number_of_unknown (hkept : AreOperands kept) {letter : UInt8}
    (h : reading spec letter = .unknown) (rest : Bytes) (args : List Bytes) :
    (next spec (kept ++ putBack (letter :: rest) args)).number = -1 := by
  have hhyphen : letter ≠ 45 := by
    rintro rfl
    rw [reading_hyphen] at h
    cases h
  rw [next_letter hkept hhyphen, Step.number_behind]
  unfold takeOption
  rcases kind_or_last_of_unknown h with rfl | hkind
  · split
    · rfl
    · rfl
    · split
      · rfl
      · split <;> rfl
  · rw [hkind]
    rfl

end Next

/-! ### The steps as one scan -/

/-- A letter that is taken does not answer what the last step does. -/
theorem letterNumber_of_reading {spec : Bytes} (hspec : 0 ∉ spec) {letter : UInt8} {k : Kind}
    (h : (reading spec letter).kind = some k) :
    letterNumber letter ≠ 0 ∧ letterNumber letter ≠ -1 := by
  obtain ⟨-, hlast, hkind⟩ := kind_of_reading h
  refine ⟨fun hzero => hspec ?_, fun hone => hlast (letterNumber_inj.mp hone)⟩
  rw [← show letter = 0 from letterNumber_inj.mp hzero]
  exact mem_of_kind hkind

theorem putBack_tail {arg : Bytes} (h : isGroup arg = true) (args : List Bytes) :
    putBack arg.tail args = arg :: args := by
  unfold isGroup at h
  split at h
  · rfl
  · cases h

/-- Behind operands, the steps are one scan of what is left of a group and the arguments that
follow. -/
theorem observe_scan {spec : Bytes} (hspec : 0 ∉ spec) (group : Bytes) (args : List Bytes)
    {kept : List Bytes} (hkept : AreOperands kept) :
    observe (steps spec (kept ++ putBack group args)) =
      (scan (reading spec) group args).seen.behind kept := by
  fun_induction scan (reading spec) group args generalizing kept with
  | case1 => exact observe_of_finished (next_append hkept [])
  | case2 arg args hgroup ih =>
    rw [Scan.seen_add_of_not_remains arg rfl, ← ih hkept, putBack_tail hgroup]
    rfl
  | case3 arg args hgroup ih =>
    have hkept' := hkept.concat (eq_false_of_ne_true hgroup)
    rw [Scan.seen_add_of_remains arg rfl, Seen.behind_behind, ← ih hkept', List.append_assoc]
    rfl
  | case4 letter rest args hread ih =>
    obtain ⟨hzero, hone⟩ := letterNumber_of_reading hspec (congrArg Reading.kind hread)
    rw [observe_of_found (next_flag hkept hread rest args) hzero hone, ih hkept]
    rfl
  | case5 letter rest args hread hrest ih =>
    obtain ⟨hzero, hone⟩ := letterNumber_of_reading hspec (congrArg Reading.kind hread)
    rw [observe_of_found (next_valued hkept hread hrest args) hzero hone]
    exact congrArg _ (ih hkept)
  | case6 letter rest hread hrest =>
    obtain rfl : rest = [] := Classical.not_not.mp hrest
    exact observe_of_neg_one (number_of_missing hkept hread)
  | case7 letter rest hread hrest value args ih =>
    obtain rfl : rest = [] := Classical.not_not.mp hrest
    obtain ⟨hzero, hone⟩ := letterNumber_of_reading hspec (congrArg Reading.kind hread)
    rw [observe_of_found (next_valued_arg hkept hread value args) hzero hone, Scan.seen_take,
      Scan.seen_add_of_not_remains value rfl]
    exact congrArg _ (ih hkept)
  | case8 letter rest args hread =>
    exact observe_of_neg_one (number_of_unknown hkept hread rest args)
  | case9 letter rest args hread ih =>
    obtain rfl := eq_hyphen_of_reading hread
    -- What is left of the group starts with two hyphens, so every later step passes over it.
    have hkept' := hkept.concat (show isGroup (45 :: 45 :: rest) = false from rfl)
    rw [Scan.seen_add_of_remains _ rfl, Seen.behind_behind, ← ih hkept', List.append_assoc]
    rfl

theorem observe_steps {spec : Bytes} (hspec : 0 ∉ spec) (args : List Bytes) :
    observe (steps spec args) = (scan (reading spec) [] args).seen :=
  (observe_scan hspec [] args areOperands_nil).trans (Seen.behind_nil _)

/-- If no more is seen than the specification asks for, and arguments remain, no letter was read in
another way. -/
theorem isPlain_of_seen {spec : Bytes} {args : List Bytes}
    (h : (scan (reading spec) [] args).seen = (scanArgs spec args).seen)
    (hremaining : (scanArgs spec args).seen.remaining ≠ none) : (scanArgs spec args).IsPlain := by
  constructor
  · intro o ho
    have hmem : (letterNumber o.1, o.2) ∈ (scanArgs spec args).seen.options :=
      List.mem_map_of_mem ho
    rw [← h] at hmem
    obtain ⟨o', ho', heq⟩ := List.mem_map.mp hmem
    obtain ⟨k, hk⟩ := kind_of_mem_options ho'
    obtain ⟨hhyphen, hlast, -⟩ := kind_of_reading hk
    rw [← letterNumber_inj.mp (congrArg Prod.fst heq)]
    exact ⟨hhyphen, hlast⟩
  · intro hfault
    exact hremaining (by simp [Scan.seen, hfault])

/-- **Options taken one by one.** Whatever the arguments, the steps come to an end. Together they
answer and leave what one scan does that ends a group at a hyphen and takes 0xFF for unknown. So
they are the scan that the specification asks for if this one is plain, and if they end with 0, then
only if it is. Where that scan meets no fault, its words are the arguments, each a group, a value or
an operand, and the operands remain. -/
theorem steps_scan {spec : Bytes} (hspec : 0 ∉ spec) (args : List Bytes) :
    (∀ run, Run spec args run ↔ run = steps spec args) ∧
      observe (steps spec args) = (scan (reading spec) [] args).seen ∧
      ((scanArgs spec args).IsPlain → observe (steps spec args) = (scanArgs spec args).seen) ∧
      ((observe (steps spec args)).remaining ≠ none →
        observe (steps spec args) = (scanArgs spec args).seen → (scanArgs spec args).IsPlain) ∧
      ((scanArgs spec args).fault = none →
        (scanArgs spec args).words.map Word.text = args ∧
          (∀ w ∈ (scanArgs spec args).words, w.HasRole) ∧
          (scanArgs spec args).remaining =
            ((scanArgs spec args).words.filter (·.role = .operand)).map Word.text) := by
  refine ⟨fun run => run_iff, observe_steps hspec args, ?_, ?_, ?_⟩
  · intro hplain
    rw [observe_steps hspec, scan_reading_of_isPlain hplain, scanArgs]
  · intro hremaining hseen
    rw [hseen] at hremaining
    rw [observe_steps hspec] at hseen
    exact isPlain_of_seen hseen hremaining
  · intro hfault
    exact ⟨words_eq (listed_ne_left spec) hfault,
      fun _ => hasRole_of_mem_words (listed_ne_left spec), remaining_scanArgs spec args⟩

/-- A group with the next argument for a value, one with a value of its own, and three operands. -/
theorem steps_scan_groups :
    let spec := ascii "c:m:v"
    let args := [ascii "-", ascii "-vc", ascii "-5", ascii "--x", ascii "-m4k", ascii "y"]
    0 ∉ spec ∧ (scanArgs spec args).IsPlain ∧ (scanArgs spec args).fault = none ∧
      Run spec args (steps spec args) ∧
      observe (steps spec args) =
        ⟨[(118, none), (99, some (ascii "-5")), (109, some (ascii "4k"))],
          some [ascii "-", ascii "--x", ascii "y"]⟩ ∧
      (scanArgs spec args).words.map Word.text = args := by
  intro spec args
  have hspec : 0 ∉ spec := by decide
  have hplain : (scanArgs spec args).IsPlain := by decide +kernel
  have hfault : (scanArgs spec args).fault = none := by decide +kernel
  obtain ⟨hrun, -, hseen, -, hwords⟩ := steps_scan hspec args
  refine ⟨hspec, hplain, hfault, (hrun _).mpr rfl, (hseen hplain).trans ?_, (hwords hfault).1⟩
  decide +kernel

/-- A hyphen behind a flag is not read as a letter: what is left of its group remains. -/
theorem hyphen_behind_flag_remains :
    ¬ ∀ (spec : Bytes) (args : List Bytes), 0 ∉ spec →
      observe (steps spec args) = (scanArgs spec args).seen := by
  intro h
  have hseen := h (ascii "v") [ascii "-v-x"] (by decide)
  have hsteps : observe (steps (ascii "v") [ascii "-v-x"]) =
      ⟨[(118, none)], some [ascii "--x"]⟩ := by decide +kernel
  have hscan : (scanArgs (ascii "v") [ascii "-v-x"]).seen = ⟨[(118, none)], none⟩ := by
    decide +kernel
  rw [hsteps, hscan] at hseen
  exact Option.some_ne_none _ (congrArg Seen.remaining hseen)

/-- The letter 0xFF answers −1 where it is listed too. -/
example : observe (steps [0xFF] [[45, 0xFF]]) = ⟨[], none⟩ := by decide +kernel

end LdapBer.Options
