import LdapBer.Proofs.Decode.Chunks
import LdapBer.Message.Grammar

/-! Histories of calls.

A decoder can be told to decode a chunk or to declare the end of the input, to hand its messages to
another callback, and to start over. A call can go wrong at any point: after some of the messages of
a chunk have been delivered, in the callback, with a message half filled and elements open. Whatever
state this leaves the decoder in does not show (`failed_until_reset`): until it is reset it refuses
to go on and does not change, and then it is as if it had just been made. -/
namespace LdapBer
variable {σ M S ε : Type}

inductive Call (M S ε : Type) where
  | decode (chunk : Bytes)
  | finish
  | setCallback (callback : Option (Callback M S ε))
  | reset

/-- The callback that is installed after a call. -/
def Call.installs (callback : Option (Callback M S ε)) : Call M S ε → Option (Callback M S ε)
  | .setCallback callback => callback
  | _ => callback

/-- What can be asked of a decoder. -/
structure View where
  offset : UInt64
  bytesPending : Nat
  inMessage : Bool
  isFailed : Bool
deriving DecidableEq, Repr

/-- What a call tells its caller, and what can be asked of the decoder after it. -/
structure Answer (σ S ε : Type) where
  reply : Reply σ S ε
  view : View

namespace Decoder

def view (d : Decoder σ M S ε) : View :=
  ⟨d.container.offset, d.pending.length, d.container.started, d.isFailed⟩

/-- What a call leaves and what it tells its caller. -/
def call (d : Decoder σ M S ε) (state : S) : Call M S ε → Decoder σ M S ε × Reply σ S ε
  | .decode chunk => d.decode chunk state
  | .finish => (d.finish.1, ⟨state, [], d.finish.2⟩)
  | .setCallback callback => (d.setCallback callback, ⟨state, [], none⟩)
  | .reset => (d.reset, ⟨state, [], none⟩)

def answer (d : Decoder σ M S ε) (state : S) (c : Call M S ε) : Answer σ S ε :=
  ⟨(d.call state c).2, (d.call state c).1.view⟩

/-! ### Calls one after another -/

/-- What a history leaves of the decoder and of the state of its callbacks. -/
def run (d : Decoder σ M S ε) (state : S) : List (Call M S ε) → Decoder σ M S ε × S
  | [] => (d, state)
  | c :: calls => run (d.call state c).1 (d.call state c).2.state calls

def answers (d : Decoder σ M S ε) (state : S) : List (Call M S ε) → List (Answer σ S ε)
  | [] => []
  | c :: calls => d.answer state c :: answers (d.call state c).1 (d.call state c).2.state calls

/-- The callback that is installed after a history. -/
def installed (callback : Option (Callback M S ε)) : List (Call M S ε) → Option (Callback M S ε)
  | [] => callback
  | c :: calls => installed (c.installs callback) calls

/-! ### Errors -/

/-- A call that fails leaves the decoder failed. -/
theorem isFailed_of_call (d : Decoder σ M S ε) (state : S) (c : Call M S ε)
    (h : (d.call state c).2.error ≠ none) : (d.call state c).1.isFailed = true := by
  cases c with
  | decode chunk =>
    rw [call, isFailed_decode]
    exact Option.isSome_iff_ne_none.mpr h
  | finish =>
    rw [call, finish_eq]
    exact Option.isSome_iff_ne_none.mpr h
  | setCallback => exact absurd rfl h
  | reset => exact absurd rfl h

theorem isFailed_of_answers (d : Decoder σ M S ε) (state : S) (calls : List (Call M S ε)) :
    ∀ a ∈ d.answers state calls, a.reply.error ≠ none → a.view.isFailed = true := by
  induction calls generalizing d state with
  | nil => exact List.forall_mem_nil _
  | cons c calls ih =>
    rw [answers, List.forall_mem_cons]
    exact ⟨d.isFailed_of_call state c, ih _ _⟩

/-! ### Refusing -/

/-- What a failed decoder answers, of which `view` can be asked. It installs a callback and refuses
everything else. -/
def refusal (view : View) (state : S) : Call M S ε → Answer σ S ε
  | .decode _ | .finish => ⟨⟨state, [], some .unusable⟩, view⟩
  | .setCallback _ | .reset => ⟨⟨state, [], none⟩, view⟩

/-- A call other than a reset leaves of a failed decoder all but the callback. -/
theorem call_of_failed {d : Decoder σ M S ε} (hd : d.isFailed = true) (state : S) {c : Call M S ε}
    (hc : c ≠ .reset) :
    d.answer state c = refusal d.view state c ∧ (d.call state c).2.state = state ∧
      (d.call state c).1.view = d.view := by
  cases c with
  | decode chunk => simp [answer, call, decode, refusal, hd]
  | finish => simp [answer, call, finish, refusal, hd]
  | setCallback callback => exact ⟨rfl, rfl, rfl⟩
  | reset => exact absurd rfl hc

theorem answers_of_failed {d : Decoder σ M S ε} (hd : d.isFailed = true) (state : S)
    {calls : List (Call M S ε)} (hcalls : .reset ∉ calls) :
    d.answers state calls = calls.map (refusal d.view state) := by
  induction calls generalizing d with
  | nil => rfl
  | cons c calls ih =>
    rw [List.mem_cons, not_or] at hcalls
    obtain ⟨hanswer, hstate, hview⟩ := call_of_failed hd state (Ne.symm hcalls.1)
    have hfailed : (d.call state c).1.isFailed = true := (congrArg View.isFailed hview).trans hd
    rw [answers, hanswer, hstate, ih hfailed hcalls.2, hview]
    rfl

/-! ### Starting over -/

/-- A call leaves alone what a decoder is made of, the callback apart. -/
theorem made_of_call (d : Decoder σ M S ε) (state : S) (c : Call M S ε) :
    (d.call state c).1.grammar = d.grammar ∧ (d.call state c).1.limit = d.limit ∧
      (d.call state c).1.callback = c.installs d.callback := by
  cases c with
  | decode chunk =>
    exact ⟨d.grammar_decode chunk state, d.limit_decode chunk state, d.callback_decode chunk state⟩
  | finish =>
    rw [call, finish_eq]
    exact ⟨rfl, rfl, rfl⟩
  | setCallback => exact ⟨rfl, rfl, rfl⟩
  | reset => exact ⟨rfl, rfl, rfl⟩

/-- Whatever a history does to a decoder, a reset leaves no more of it than the callback. -/
theorem reset_run (d : Decoder σ M S ε) (state : S) (calls : List (Call M S ε)) :
    (d.run state calls).1.reset = new d.grammar d.limit (installed d.callback calls) := by
  induction calls generalizing d state with
  | nil => exact d.reset_eq_new
  | cons c calls ih =>
    obtain ⟨hgrammar, hlimit, hcallback⟩ := d.made_of_call state c
    rw [run, ih, hgrammar, hlimit, hcallback, installed]

/-- **A failure lasts until the reset, and the reset wipes it out.** In every history of a decoder a
call that fails leaves it failed. While it is failed it refuses to decode and to finish: nothing is
delivered, nothing is traced, and all that can be asked of it stays. Reset, it answers every later
history as one that has just been made with the same grammar and limit and the callback installed
last. -/
theorem failed_until_reset (g : Grammar σ M) (limit : Option Nat)
    (callback : Option (Callback M S ε)) (state : S) (history : List (Call M S ε)) :
    let made := new g limit callback
    let d := (made.run state history).1
    (∀ a ∈ made.answers state history, a.reply.error ≠ none → a.view.isFailed = true) ∧
      (d.isFailed = true → ∀ state' calls, .reset ∉ calls →
        d.answers state' calls = calls.map (refusal d.view state')) ∧
      ∀ state' calls, d.reset.answers state' calls =
        (new g limit (installed callback history)).answers state' calls := by
  intro made d
  refine ⟨made.isFailed_of_answers state history, fun hd state' calls hcalls => ?_,
    fun state' calls => ?_⟩
  · exact answers_of_failed hd state' hcalls
  · have hreset : d.reset = new g limit (installed callback history) := made.reset_run state history
    rw [hreset]

/-- An unbind request is delivered and a stray byte fails. The rest of the second request is refused
until the decoder is reset. -/
theorem failed_until_reset_unbind :
    let unbind : Bytes := [0x30, 0x05, 0x02, 0x01, 0x02, 0x42, 0x00]
    let count : Option (Callback Message Nat Empty) := some fun _ _ n => (n + 1, none)
    let history : List (Call Message Nat Empty) :=
      [.decode (unbind ++ [0x30, 0x05]), .decode [0xFF]]
    let made := new Message.grammar none count
    let d := (made.run 0 history).1
    let calls : List (Call Message Nat Empty) := [.decode unbind, .setCallback none, .finish]
    d.isFailed = true ∧ .reset ∉ calls ∧ d.answers 1 calls = calls.map (refusal d.view 1) ∧
      d.reset.answers 1 calls = made.answers 1 calls := by
  intro unbind count history made d calls
  have hd : d.isFailed = true := by decide +kernel
  have hcalls : .reset ∉ calls := by simp [calls]
  obtain ⟨-, hrefuses, hstarts⟩ := failed_until_reset Message.grammar none count 0 history
  exact ⟨hd, hcalls, hrefuses hd 1 calls hcalls, hstarts 1 calls⟩

end Decoder

end LdapBer
