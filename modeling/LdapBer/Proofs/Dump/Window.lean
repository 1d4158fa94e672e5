import LdapBer.Dump.File
import LdapBer.Proofs.Decode.Deliveries
import LdapBer.Proofs.Decode.Positions

/-! The window onto a file.

While a file is decoded chunk by chunk, a window keeps what was read since the start of the message
under way (`Shows`). It grows with every read and slides behind it. A run holds the messages against
the same bytes, and says the same of them, if the window has the whole file from the beginning and
slides behind every message instead (`Progress.takeAndSlide`, `feed_ahead`). -/
namespace LdapBer.Dump
variable {σ : Type} {file : Bytes} {fed base start : Nat} {p : Progress} {hex : Bool}
  {stop : UInt64} {m : Message}

/-! ### What the window shows -/

/-- Of the file `fed` bytes were read. The window has those from `base` on, and the message under
way began at `start`. -/
structure Shows (file : Bytes) (fed base start : Nat) (p : Progress) : Prop where
  windowStart : p.windowStart = base.toUInt64
  messageStart : p.messageStart = start.toUInt64
  window : p.window = (file.take fed).drop base
  base_le : base ≤ start
  start_le : start ≤ fed
  fed_le : fed ≤ file.length
  near : start - base < 0x10000000000000000

/-- The same progress, with a window from the start of the message to the end of the file. -/
def Progress.ahead (p : Progress) (file : Bytes) (start : Nat) : Progress :=
  {p with window := file.drop start, windowStart := p.messageStart}

theorem Shows.toNat_sub (h : Shows file fed base start p) :
    (p.messageStart - p.windowStart).toNat = start - base := by
  have hsub : start.toUInt64 - base.toUInt64 = (start - base).toUInt64 := by
    rw [← toUInt64_add_sub base (start - base), Nat.add_sub_cancel' h.base_le]
  rw [h.messageStart, h.windowStart, hsub, toNat_toUInt64 h.near]

/-- A position, told by how far it is behind the start of the message. -/
theorem Shows.stop_eq (h : Shows file fed base start p) (stop : UInt64) :
    stop = (start + (stop - p.messageStart).toNat).toUInt64 := by
  rw [h.messageStart, toUInt64_add_toNat_sub]

/-- From the start of the message on the window shows what was read of the file. -/
theorem Shows.drop_window (h : Shows file fed base start p) :
    p.window.drop (p.messageStart - p.windowStart).toNat = (file.take fed).drop start := by
  rw [h.toNat_sub, h.window, List.drop_drop, Nat.add_sub_cancel' h.base_le]

theorem Shows.length_window (h : Shows file fed base start p) : base + p.window.length = fed := by
  have hbase := h.base_le
  have hstart := h.start_le
  rw [h.window, List.length_drop, List.length_take_of_le h.fed_le]
  omega

/-- The bytes of a message that was read are in the window. -/
theorem Shows.received_ahead (h : Shows file fed base start p)
    (hsize : start + (stop - p.messageStart).toNat ≤ fed) :
    (p.ahead file start).received stop = p.received stop := by
  rw [Progress.received, Progress.received, h.drop_window, Progress.ahead]
  dsimp only
  rw [UInt64.sub_self, UInt64.toNat_zero, List.drop_zero, List.drop_take, List.take_take,
    Nat.min_eq_left (by omega)]

theorem Shows.appendChunk (h : Shows file fed start start p) {chunk more : Bytes}
    (hfile : file.drop fed = chunk ++ more) :
    Shows file (fed + chunk.length) start start (p.appendChunk chunk) where
  windowStart := h.windowStart
  messageStart := h.messageStart
  window := by
    have hlength : (file.take fed).length = fed := List.length_take_of_le h.fed_le
    rw [Progress.appendChunk, h.window, List.take_add, hfile, List.take_left,
      List.drop_append_of_le_length (by rw [hlength]; exact h.start_le)]
  base_le := Nat.le_refl start
  start_le := Nat.le_trans h.start_le (Nat.le_add_right fed chunk.length)
  fed_le := by
    have hlength := congrArg List.length hfile
    have hle := h.fed_le
    rw [List.length_drop, List.length_append] at hlength
    omega
  near := h.near

theorem Shows.slide (h : Shows file fed base start p) : Shows file fed start start p.slide where
  windowStart := h.messageStart
  messageStart := h.messageStart
  window := h.drop_window
  base_le := Nat.le_refl start
  start_le := h.start_le
  fed_le := h.fed_le
  near := by rw [Nat.sub_self]; exact Nat.zero_lt_succ _

/-! ### Taking a message -/

namespace Progress

/-- Takes a message and slides the window behind it. -/
def takeAndSlide (hex : Bool) : Callback Message Progress EncodeError := fun stop m p =>
  ((take hex stop m p).1.slide, (take hex stop m p).2)

/-- A message as it is shown before it is compared. -/
def shown (m : Message) (p : Progress) : Progress :=
  {p with count := p.count + 1}.say (showMessage m)

theorem take_of_error {e : EncodeError} (h : m.encode = .error e) :
    take hex stop m p = (p.shown m, some e) := by
  rw [take, h]
  rfl

theorem take_of_ok {encoded : Bytes} (h : m.encode = .ok encoded) :
    take hex stop m p =
      ({compare hex m encoded (p.received stop) (p.shown m) with messageStart := stop}, none) := by
  rw [take, h]
  rfl

/-- A comparison adds to the report and leaves the window alone. -/
theorem compare_eq (encoded received : Bytes) (p : Progress) :
    compare hex m encoded received p =
      {p with
        mismatches := (compare hex m encoded received p).mismatches
        out := (compare hex m encoded received p).out} := by
  by_cases heq : encoded = received <;> cases hex <;> simp [compare, say, heq]

@[simp] theorem window_compare (encoded received : Bytes) (p : Progress) :
    (compare hex m encoded received p).window = p.window := by
  rw [compare_eq]

@[simp] theorem windowStart_compare (encoded received : Bytes) (p : Progress) :
    (compare hex m encoded received p).windowStart = p.windowStart := by
  rw [compare_eq]

@[simp] theorem count_compare (encoded received : Bytes) (p : Progress) :
    (compare hex m encoded received p).count = p.count := by
  rw [compare_eq]

theorem mismatches_compare (encoded received : Bytes) (p : Progress) :
    (compare hex m encoded received p).mismatches =
      p.mismatches + if encoded = received then 0 else 1 := by
  by_cases heq : encoded = received <;> cases hex <;> simp [compare, say, heq]

theorem compare_ahead (encoded received : Bytes) (p : Progress) :
    compare hex m encoded received (p.ahead file start) =
      (compare hex m encoded received p).ahead file start := by
  by_cases heq : encoded = received <;> cases hex <;> simp [compare, say, ahead, heq]

end Progress

/-- A message that was read is taken in the same way if the window has all of the file. -/
theorem Shows.take (h : Shows file fed base start p) (hex : Bool) (m : Message)
    (hsize : start + (stop - p.messageStart).toNat ≤ fed)
    (hnear : start + (stop - p.messageStart).toNat - base < 0x10000000000000000) :
    let taken := Progress.take hex stop m p
    ∃ start', Shows file fed base start' taken.1 ∧
      Progress.takeAndSlide hex stop m (p.ahead file start) =
        (taken.1.ahead file start', taken.2) ∧
      (taken.2 = none →
        stop = start'.toUInt64 ∧ start' = start + (stop - p.messageStart).toNat) := by
  intro taken
  cases hencode : m.encode with
  | error e =>
    have htaken : taken = (p.shown m, some e) := Progress.take_of_error hencode
    rw [htaken, Progress.takeAndSlide, Progress.take_of_error hencode]
    refine ⟨start, ⟨h.windowStart, h.messageStart, h.window, h.base_le, h.start_le, h.fed_le,
      h.near⟩, ?_, nofun⟩
    simp [Progress.shown, Progress.slide, Progress.ahead, Progress.say]
  | ok encoded =>
    have htaken : taken = _ := Progress.take_of_ok hencode
    rw [htaken, Progress.takeAndSlide, Progress.take_of_ok hencode]
    refine ⟨start + (stop - p.messageStart).toNat, ?_, ?_, fun _ => ⟨h.stop_eq stop, rfl⟩⟩
    · rw [Progress.compare_eq]
      exact ⟨h.windowStart, h.stop_eq stop, h.window,
        Nat.le_trans h.base_le (Nat.le_add_right ..), hsize, h.fed_le, hnear⟩
    · have hshown : (p.ahead file start).shown m = (p.shown m).ahead file start := rfl
      rw [h.received_ahead hsize, hshown, Progress.compare_ahead, Progress.compare_eq]
      simp [Progress.shown, Progress.slide, Progress.ahead, Progress.say, List.drop_drop]

/-! ### Runs -/

section
variable {g : Grammar σ Message} {limit : Option Nat} {c c' : Container σ Message} {s rest : Bytes}
  {events : List (Event σ)}

/-- The container is in a session. The message under way began at `start`, modulo 2^64, and all that
was taken of it and the input `s` are among the first `fed` bytes of the file. -/
def Follows (g : Grammar σ Message) (limit : Option Nat) (fed start : Nat) (c : Container σ Message)
    (s : Bytes) : Prop :=
  ∃ n message, Session g limit n message c ∧ n.toUInt64 = start.toUInt64 ∧
    start + message.length + s.length ≤ fed

theorem Follows.advance (h : Follows g limit fed start c s) {status : Status}
    (ha : LdapBer.advance g limit c s = ⟨c', rest, events, status⟩)
    (hok : ∀ e, status ≠ .failed e) : Follows g limit fed start c' rest := by
  obtain ⟨n, message, hsession, hn, hread⟩ := h
  obtain ⟨bytes, rfl, hsession'⟩ := hsession.advance ha hok
  refine ⟨n, message ++ bytes, hsession', hn, ?_⟩
  simp only [List.length_append] at hread ⊢
  omega

/-- A message that begins in the input takes its bytes from the input, and one that began before is
small. -/
theorem Follows.size_of_done (h : Follows g limit fed start c s)
    (ha : LdapBer.advance g limit c s = ⟨c', rest, events, .done⟩) :
    let size := (c'.offset - start.toUInt64).toNat
    Follows g limit fed (start + size) (c'.reset g) rest ∧
      size + rest.length ≤ c.started.toNat * 0x200000000 + s.length := by
  intro size
  obtain ⟨n, message, hsession, hn, hread⟩ := h
  obtain ⟨bytes, rfl, hsession', hsmall, hsize⟩ := hsession.size_of_done ha
  rw [hn] at hsmall hsize
  rw [List.length_append] at hread ⊢
  have hposition : (n + (message ++ bytes).length).toUInt64 = (start + size).toUInt64 := by
    rw [← (anchored_of_session hsession').offset, toUInt64_add_toNat_sub]
  refine ⟨⟨_, [], hsession'.reset, hposition, ?_⟩, ?_⟩
  · rw [List.length_nil]
    omega
  · cases hstarted : c.started with
    | false =>
      obtain ⟨rfl, -⟩ := (anchored_of_session hsession).unstarted hstarted
      rw [List.length_nil] at hsize
      rw [Bool.toNat_false]
      omega
    | true =>
      rw [Bool.toNat_true]
      omega

/-- A call on a window, and the same call on all of the file. The window has the message. -/
inductive Agrees (file : Bytes) : Delivery Message Progress → Delivery Message Progress → Prop
  | mk {fed base start : Nat} {stop : UInt64} {m : Message} {p : Progress}
      (hp : Shows file fed base start p) (hsize : start + (stop - p.messageStart).toNat ≤ fed)
      (hnear : start + (stop - p.messageStart).toNat - base < 0x10000000000000000) :
      Agrees file ⟨stop, m, p⟩ ⟨stop, m, p.ahead file start⟩

/-- At the end of a message the callbacks do the same, and the next message begins there. -/
theorem Shows.notify (hp : Shows file fed base start p) (hex : Bool)
    (hc : Follows g limit fed start c s)
    (hnear : start - base + c.started.toNat * 0x200000000 + s.length < 0x10000000000000000)
    (ha : advance g limit c s = ⟨c', rest, events, .done⟩) :
    let told := LdapBer.notify (some (Progress.take hex)) c' p
    ∃ start', Shows file fed base start' told.1 ∧
      LdapBer.notify (some (Progress.takeAndSlide hex)) c' (p.ahead file start) =
        (told.1.ahead file start', told.2) ∧
      (told.2 = none → Follows g limit fed start' (c'.reset g) rest ∧
        start' - base + rest.length < 0x10000000000000000) ∧
      Agrees file ⟨c'.offset, c'.message, p⟩ ⟨c'.offset, c'.message, p.ahead file start⟩ := by
  intro told
  obtain ⟨hfollows, hsize⟩ := hc.size_of_done ha
  obtain ⟨_, _, _, _, hread⟩ := id hfollows
  rw [← hp.messageStart] at hfollows hread hsize
  have hstop : start + (c'.offset - p.messageStart).toNat ≤ fed := by omega
  have hless : start + (c'.offset - p.messageStart).toNat - base < 0x10000000000000000 := by omega
  obtain ⟨start', hp', htake, hok⟩ := hp.take hex c'.message hstop hless
  refine ⟨start', hp', htake, fun htold => ?_, .mk hp hstop hless⟩
  obtain ⟨-, rfl⟩ := hok htold
  exact ⟨hfollows, by omega⟩

/-- A run does the same with a window that slides behind every message. -/
theorem feed_ahead (hp : Shows file fed base start p) (hex : Bool)
    (hc : Follows g limit fed start c s)
    (hnear : start - base + c.started.toNat * 0x200000000 + s.length < 0x10000000000000000) :
    let f := feed g limit (some (Progress.take hex)) c s p
    ∃ start', Shows file fed base start' f.state ∧
      feed g limit (some (Progress.takeAndSlide hex)) c s (p.ahead file start) =
        {f with state := f.state.ahead file start'} ∧
      (f.error = none → Follows g limit fed start' f.container f.rest) ∧
      List.Forall₂ (Agrees file) (calls g limit (some (Progress.take hex)) c s p)
        (calls g limit (some (Progress.takeAndSlide hex)) c s (p.ahead file start)) := by
  fun_induction feed g limit (some (Progress.take hex)) c s p generalizing start with
  | case1 c s p c' rest events ha =>
    have hcalls : (advance g limit c s).status ≠ .done := by simp [ha]
    refine ⟨start, hp, ?_, fun _ => hc.advance ha (by simp), ?_⟩
    · rw [feed_eq, ha]
    · rw [calls_of_not_done hcalls, calls_of_not_done hcalls]
      exact .nil
  | case2 c s p c' rest events e ha =>
    have hcalls : (advance g limit c s).status ≠ .done := by simp [ha]
    refine ⟨start, hp, ?_, by simp, ?_⟩
    · rw [feed_eq, ha]
    · rw [calls_of_not_done hcalls, calls_of_not_done hcalls]
      exact .nil
  | case3 c s p c' rest events ha p' e hn =>
    obtain ⟨start', hp', hn', -, hagrees⟩ := hp.notify hex hc hnear ha
    rw [hn] at hp' hn'
    refine ⟨start', hp', ?_, by simp, ?_⟩
    · rw [feed_eq, ha]
      simp only [hn']
    · rw [calls_of_error ha hn, calls_of_error ha hn']
      exact .cons hagrees .nil
  | case4 c s p c' rest events ha p' hn _ ih =>
    obtain ⟨middle, hp', hn', hnext, hagrees⟩ := hp.notify hex hc hnear ha
    rw [hn] at hp' hn' hnext
    obtain ⟨hfollows, hless⟩ := hnext rfl
    have hreset : (c'.reset g).started.toNat = 0 := rfl
    obtain ⟨start', hshows, hfeed, hrest, hcalls⟩ := ih hp' hfollows (by rw [hreset]; omega)
    refine ⟨start', hshows, ?_, hrest, ?_⟩
    · rw [feed_eq, ha]
      simp only [hn', hfeed]
      rfl
    · rw [calls_of_ok ha hn, calls_of_ok ha hn']
      exact .cons hagrees hcalls

end

end LdapBer.Dump
