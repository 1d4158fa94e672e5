import LdapBer.Text

/-! Failures with their causes.

A failure has a reason and possibly a cause, which is a failure again. The innermost cause
may be of a kind that says nothing about itself. A program that fails tells all reasons,
outermost first, and ends with status 1. -/
namespace LdapBer

inductive Failure where
  | reason (text : Bytes)
  | nested (text : Bytes) (cause : Failure)
  | unknown
deriving DecidableEq, Repr

namespace Failure

def reasonLine (text : Bytes) : Bytes :=
  ascii "Reason: " ++ text ++ ascii "\n"

/-- A line for each reason. -/
def explain : Failure → Bytes
  | reason text => reasonLine text
  | nested text cause => reasonLine text ++ cause.explain
  | unknown => ascii "Unknown exception class\n"

/-- What a program that ends with the failure reports. -/
def report : Failure → Bytes
  | unknown => ascii "Some unknown exception was caught.\n"
  | f => ascii "The program was interrupted\n" ++ f.explain

/-- A failure from its reasons, outermost first; `innermost` is what nothing is known about. -/
def ofReasons (innermost : Bool) : List Bytes → Failure
  | [] => unknown
  | [text] => if innermost then nested text unknown else reason text
  | text :: texts => nested text (ofReasons innermost texts)

end Failure

/-- The exit status of a program and its report, if it failed. -/
def conclude : Except Failure Int → Int × Bytes
  | .ok status => (status, [])
  | .error f => (1, f.report)

section Outcomes
variable {ε α β : Type} {x : Except ε α} {b : β}

theorem map_eq_ok_iff {f : α → β} : f <$> x = .ok b ↔ ∃ a, x = .ok a ∧ f a = b := by
  cases x <;> simp [Functor.map, Except.map]

theorem map_eq_error_iff {f : α → β} {e : ε} : f <$> x = .error e ↔ x = .error e := by
  cases x <;> simp [Functor.map, Except.map]

theorem bind_eq_ok_iff {f : α → Except ε β} : (x >>= f) = .ok b ↔ ∃ a, x = .ok a ∧ f a = .ok b := by
  cases x <;> simp [bind, Except.bind]

theorem bind_eq_error_iff {f : α → Except ε β} {e : ε} :
    (x >>= f) = .error e ↔ x = .error e ∨ ∃ a, x = .ok a ∧ f a = .error e := by
  cases x <;> simp [bind, Except.bind]

end Outcomes

end LdapBer
