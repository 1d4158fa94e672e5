import LdapBer.Proofs.Dump.ChunkSize
import LdapBer.Proofs.Message.Reencoding

/-! What a message is compared to.

A file begins with messages in a row, and the callback gets them one by one (`handOver_watched`).
Whatever the chunks are, each of them is held against its own bytes, which are in the window, and
the differences are counted; so a file is clean if it is made of messages that are encoded as they
were read (`dumpFile_compares`). -/
namespace LdapBer.Dump
variable {n : Nat} {b s : Bytes} {m : Message} {p : Progress}
  {parts : List (Bytes × Message)}

/-! ### One message after the other -/

/-- The window begins at position `n`, with the next message, and shows `s`. -/
structure Begins (n : Nat) (s : Bytes) (p : Progress) : Prop where
  messageStart : p.messageStart = n.toUInt64
  windowStart : p.windowStart = n.toUInt64
  window : p.window = s

/-- The bytes that the message of a call is held against. -/
def compared (d : Delivery Message Progress) : Bytes :=
  d.kept.received d.stop

/-- The message is not encoded as it was read. -/
def Differs (b : Bytes) (m : Message) : Prop :=
  m.encode ≠ .ok b

instance (b : Bytes) (m : Message) : Decidable (Differs b m) :=
  inferInstanceAs (Decidable (m.encode ≠ .ok b))

theorem Begins.received (h : Begins n (b ++ s) p) (hsize : n + b.length < 0x10000000000000000) :
    p.received (n + b.length).toUInt64 = b := by
  rw [Progress.received, h.messageStart, h.windowStart, h.window, UInt64.sub_self,
    UInt64.toNat_zero, List.drop_zero, toUInt64_add_sub, toNat_toUInt64 (by omega), List.take_left]

theorem Begins.takeAndSlide (h : Begins n (b ++ s) p) (hex : Bool)
    (hsize : n + b.length < 0x10000000000000000) {encoded : Bytes} (hm : m.encode = .ok encoded) :
    ∃ p', Progress.takeAndSlide hex (n + b.length).toUInt64 m p = (p', none) ∧
      Begins (n + b.length) s p' ∧ p'.count = p.count + 1 ∧
      p'.mismatches = p.mismatches + if Differs b m then 1 else 0 := by
  let stop := (n + b.length).toUInt64
  let told := {Progress.compare hex m encoded b (p.shown m) with messageStart := stop}
  have htake : Progress.takeAndSlide hex stop m p = (told.slide, none) := by
    rw [Progress.takeAndSlide, Progress.take_of_ok hm, h.received hsize]
  have hwindow : told.slide.window = s := by
    have hslide : told.slide.window = p.window.drop (stop - p.windowStart).toNat := by
      simp [told, Progress.slide, Progress.shown, Progress.say]
    rw [hslide, h.windowStart, h.window, toUInt64_add_sub, toNat_toUInt64 (by omega),
      List.drop_left]
  have hcount : told.slide.count = p.count + 1 := by
    simp [told, Progress.slide, Progress.shown, Progress.say]
  have hdiffers : Differs b m ↔ ¬ encoded = b := by
    rw [Differs, hm]
    simp
  refine ⟨told.slide, htake, ⟨rfl, rfl, hwindow⟩, hcount, ?_⟩
  simp only [hdiffers, ite_not]
  exact Progress.mismatches_compare encoded b (p.shown m)

/-- The calls are about messages in a row, the first of which begins at `n`. Each message is held
against its own bytes, from the end of the message before it to its own end. -/
inductive Covers : Nat → List (Bytes × Message) → List (Delivery Message Progress) → Prop
  | nil (n : Nat) : Covers n [] []
  | cons {n : Nat} {b : Bytes} {parts : List (Bytes × Message)} {d : Delivery Message Progress}
      {ds : List (Delivery Message Progress)} (hstart : d.kept.messageStart = n.toUInt64)
      (hstop : d.stop = (n + b.length).toUInt64) (hcompared : compared d = b)
      (h : Covers (n + b.length) parts ds) : Covers n ((b, d.message) :: parts) (d :: ds)

section
variable {ds ds' : List (Delivery Message Progress)}

theorem Covers.map_eq (h : Covers n parts ds) :
    ds.map (fun d => (compared d, d.message)) = parts := by
  induction h with
  | nil => rfl
  | cons _ _ hcompared _ ih => rw [List.map_cons, ih, hcompared]

/-- How many messages are not encoded as they were read. -/
def differences (ds : List (Delivery Message Progress)) : Nat :=
  ds.countP fun d => decide (Differs (compared d) d.message)

theorem Covers.differences_eq (h : Covers n parts ds) :
    differences ds = parts.countP fun part => decide (Differs part.1 part.2) := by
  rw [← h.map_eq, List.countP_map]
  rfl

theorem countP_differs_eq_zero_iff :
    (parts.countP fun part => decide (Differs part.1 part.2)) = 0 ↔
      ∀ part ∈ parts, part.2.encode = .ok part.1 := by
  simp only [List.countP_eq_zero, decide_eq_true_eq]
  simp only [Differs, ne_eq, not_not]

theorem Covers.of_agrees {file : Bytes} (h : Covers n parts ds')
    (hagrees : List.Forall₂ (Agrees file) ds ds') : Covers n parts ds := by
  induction h generalizing ds with
  | nil =>
    cases hagrees
    exact .nil _
  | cons hstart hstop hcompared _ ih =>
    cases hagrees with
    | cons hd hds =>
      obtain @⟨_, _, _, stop, m, p, hp, hsize, -⟩ := hd
      have hsame : compared ⟨stop, m, p⟩ = _ := (hp.received_ahead hsize).symm.trans hcompared
      exact .cons (d := ⟨stop, m, p⟩) hstart hstop hsame (ih hds)

end

theorem toUInt32_add (m n : Nat) : (m + n).toUInt32 = m.toUInt32 + n.toUInt32 :=
  UInt32.ofNat_add m n

theorem toNat_toUInt32 {n : Nat} (h : n < 0x100000000) : n.toUInt32.toNat = n := by
  rw [UInt32.toNat_ofNat']
  exact Nat.mod_eq_of_lt h

/-- A callback gets messages in a row with a window that begins with the first of them. -/
theorem handOver_watched (hex : Bool) {behind : Bytes} (log : List (Delivery Message Progress))
    (hp : Begins n ((parts.map Prod.fst).flatten ++ behind) p)
    (hsize : n + (parts.map Prod.fst).flatten.length < 0x10000000000000000)
    (hparts : ∀ part ∈ parts, ∃ e, part.2.encode = .ok e) :
    ∃ p' ds, handOver (watched (some (Progress.takeAndSlide hex))) n parts (p, log) =
        ((p', log ++ ds), none) ∧
      Covers n parts ds ∧ p'.count = p.count + ds.length.toUInt32 ∧
      p'.mismatches = p.mismatches + (differences ds).toUInt32 := by
  induction parts generalizing n p log with
  | nil => exact ⟨p, [], by rw [handOver, List.append_nil], .nil n, by simp, by simp [differences]⟩
  | cons part parts ih =>
    obtain ⟨b, m⟩ := part
    obtain ⟨⟨e, he⟩, hparts⟩ := List.forall_mem_cons.mp hparts
    simp only [List.map_cons, List.flatten_cons, List.length_append, List.append_assoc] at hp hsize
    obtain ⟨middle, htake, hmiddle, hcount, hmismatches⟩ := hp.takeAndSlide hex (by omega) he
    let d : Delivery Message Progress := ⟨(n + b.length).toUInt64, m, p⟩
    have hcall : watched (some (Progress.takeAndSlide hex)) (n + b.length).toUInt64 m (p, log) =
        ((middle, log ++ [d]), none) := by
      simp only [watched, htake]
      rfl
    obtain ⟨p', ds, hrest, hcovers, hcount', hmismatches'⟩ :=
      ih (log ++ [d]) hmiddle (by omega) hparts
    have hcompared : compared d = b := hp.received (by omega)
    refine ⟨p', d :: ds, ?_, .cons hp.messageStart rfl hcompared hcovers, ?_, ?_⟩
    · rw [handOver_cons_of_ok hcall, hrest, List.append_assoc]
      rfl
    · rw [hcount', hcount, List.length_cons, toUInt32_add, UInt32.add_assoc, UInt32.add_comm 1]
      rfl
    · have hone : (if decide (Differs (compared d) d.message) then 1 else 0).toUInt32 =
          if Differs b m then 1 else 0 := by
        rw [hcompared]
        by_cases hdiffers : Differs b m <;> simp [hdiffers, d]
      rw [hmismatches', hmismatches, ← hone, UInt32.add_assoc, ← toUInt32_add, Nat.add_comm,
        differences, differences, List.countP_cons]

/-! ### Files -/

theorem length_le_of_decode {limit : Option Nat}
    (hparts : ∀ part ∈ parts, Message.grammar.decode limit part.1 = .ok part.2) :
    parts.length ≤ (parts.map Prod.fst).flatten.length := by
  induction parts with
  | nil => exact Nat.le_refl 0
  | cons part parts ih =>
    obtain ⟨hpart, hparts⟩ := List.forall_mem_cons.mp hparts
    have hpos := length_pos_of_decode hpart
    have hle := ih hparts
    rw [List.map_cons, List.flatten_cons, List.length_cons, List.length_append]
    omega

section
variable {settings : Settings} {content : Bytes}

/-- The run over a file that `decodeAtOnce` makes. -/
def runAtOnce (settings : Settings) (content : Bytes) :
    Fed Message.State Message Progress EncodeError :=
  feed Message.grammar settings.limit (some (Progress.takeAndSlide settings.hex))
    (.fresh Message.grammar 0) content {window := content}

/-- The calls of this run. -/
def callsAtOnce (settings : Settings) (content : Bytes) : List (Delivery Message Progress) :=
  calls Message.grammar settings.limit (some (Progress.takeAndSlide settings.hex))
    (.fresh Message.grammar 0) content {window := content}

theorem feed_watched_atOnce (settings : Settings) (content : Bytes) :
    let f := runAtOnce settings content
    feed Message.grammar settings.limit (some (watched (some (Progress.takeAndSlide settings.hex))))
        (.fresh Message.grammar 0) content ({window := content}, []) =
      ⟨f.container, f.rest, (f.state, callsAtOnce settings content), f.events, f.error⟩ :=
  feed_watched (.fresh Message.grammar 0) content ({window := content} : Progress) []

/-- If a file begins with messages in a row, these are compared and counted. -/
theorem covers_of_handOver (hsize : content.length < 0x100000000) {parts : List (Bytes × Message)}
    {behind : Bytes} (hcontent : content = (parts.map Prod.fst).flatten ++ behind)
    (hparts : ∀ part ∈ parts, Message.grammar.decode settings.limit part.1 = .ok part.2) :
    ∃ p ds, handOver (watched (some (Progress.takeAndSlide settings.hex))) 0 parts
        ({window := content}, []) = ((p, ds), none) ∧
      Covers 0 parts ds ∧ p.count.toNat = ds.length ∧ p.mismatches.toNat = differences ds := by
  have hlength := congrArg List.length hcontent
  rw [List.length_append] at hlength
  have hbegins : Begins 0 ((parts.map Prod.fst).flatten ++ behind) {window := content} :=
    ⟨rfl, rfl, hcontent⟩
  obtain ⟨p, ds, hhanded, hcovers, hcount, hmismatches⟩ :=
    handOver_watched settings.hex [] hbegins (by omega) fun part hpart =>
      Message.exists_encode_of_decode (hparts part hpart)
  have hds : ds.length = parts.length := by rw [← hcovers.map_eq, List.length_map]
  have hle := length_le_of_decode hparts
  have hdifferences : differences ds ≤ ds.length := List.countP_le_length
  refine ⟨p, ds, hhanded, hcovers, ?_, ?_⟩
  · rw [hcount, UInt32.zero_add, toNat_toUInt32 (by omega)]
  · rw [hmismatches, UInt32.zero_add, toNat_toUInt32 (by omega)]

/-- A file begins with the messages that are compared, and is made of them if the run over it
completes. -/
theorem covers_atOnce (settings : Settings) (hsize : content.length < 0x100000000) :
    let f := runAtOnce settings content
    ∃ parts behind, content = (parts.map Prod.fst).flatten ++ behind ∧
      (∀ part ∈ parts, Message.grammar.decode settings.limit part.1 = .ok part.2) ∧
      Covers 0 parts (callsAtOnce settings content) ∧
      f.state.count.toNat = (callsAtOnce settings content).length ∧
      f.state.mismatches.toNat = differences (callsAtOnce settings content) ∧
      (f.Completes → behind = []) := by
  intro f
  obtain ⟨parts, behind, hcontent, hparts, hhanded, hall⟩ :=
    parts_of_feed (f := watched (some (Progress.takeAndSlide settings.hex)))
      Grammar.Builtin.message.ignoresPosition settings.limit 0 content
      (({window := content} : Progress), []) (by omega)
  obtain ⟨p, ds, hhanded', hcovers, hcount, hmismatches⟩ :=
    covers_of_handOver hsize hcontent hparts
  have hfeed := feed_watched_atOnce settings content
  have hstate := (congrArg Prod.fst (hhanded'.symm.trans hhanded)).trans (congrArg Fed.state hfeed)
  obtain ⟨rfl, rfl⟩ := Prod.mk.inj hstate
  refine ⟨parts, behind, hcontent, hparts, hcovers, hcount, hmismatches, fun hcompletes => hall ?_⟩
  have hwatched := congrArg Fed.Completes hfeed
  exact hwatched.mpr ⟨hcompletes.error, hcompletes.unstarted, hcompletes.rest⟩

/-- A file of messages in a row is gone through, and all of them are compared. -/
theorem completes_atOnce (hsize : content.length < 0x100000000) {parts : List (Bytes × Message)}
    (hcontent : (parts.map Prod.fst).flatten = content)
    (hparts : ∀ part ∈ parts, Message.grammar.decode settings.limit part.1 = .ok part.2) :
    let f := runAtOnce settings content
    f.Completes ∧
      f.state.mismatches.toNat = parts.countP fun part => decide (Differs part.1 part.2) := by
  intro f
  obtain ⟨p, ds, hhanded, hcovers, -, hmismatches⟩ :=
    covers_of_handOver hsize (hcontent.symm.trans (List.append_nil _).symm) hparts
  obtain ⟨hcompletes, hstate⟩ :=
    feed_parts Grammar.Builtin.message.ignoresPosition parts 0 hparts (by rw [hcontent]; omega)
      hhanded
  rw [hcontent] at hcompletes hstate
  have hfeed := feed_watched_atOnce settings content
  have hwatched := congrArg Fed.Completes hfeed
  have hcompletes := hwatched.mp hcompletes
  have hp : f.state = p := congrArg Prod.fst ((congrArg Fed.state hfeed).symm.trans hstate)
  refine ⟨⟨hcompletes.error, hcompletes.unstarted, hcompletes.rest⟩, ?_⟩
  rw [hp, hmismatches, hcovers.differences_eq]

/-- A file is clean if the run over it completes and there is no difference. -/
theorem isClean_reportAtOnce_iff (name : Bytes) :
    (reportAtOnce settings name content none).isClean = true ↔
      (runAtOnce settings content).Completes ∧
        (runAtOnce settings content).state.mismatches = 0 := by
  have hreply := reply_decodeAtOnce settings content
  have hcompletes : (decodeAtOnce settings content).2.error = none ∧
      (decodeAtOnce settings content).1.finish.2 = none ↔ (runAtOnce settings content).Completes :=
    Decoder.decode_new_iff
  have hstate : (decodeAtOnce settings content).2.state = (runAtOnce settings content).state :=
    congrArg Reply.state hreply
  rw [← hcompletes, ← hstate, reportAtOnce]
  generalize decodeAtOnce settings content = w
  obtain ⟨d, state, events, error⟩ := w
  cases error with
  | some e => simp
  | none => cases hfinish : d.finish.2 <;> simp [hfinish]

/-- The window starts no later than the message of the call, and reaches its end. -/
structure InWindow (d : Delivery Message Progress) : Prop where
  windowStart_le : d.kept.windowStart ≤ d.kept.messageStart
  messageStart_le : d.kept.messageStart ≤ d.stop
  stop_le : d.stop.toNat ≤ d.kept.windowStart.toNat + d.kept.window.length

theorem Agrees.inWindow {d d' : Delivery Message Progress} (h : Agrees content d d')
    (hsize : content.length < 0x100000000) : InWindow d := by
  obtain @⟨fed, base, start, stop, m, p, hp, hread, -⟩ := h
  have hbase := hp.base_le
  have hfed := hp.fed_le
  have hlength := hp.length_window
  have hwindowStart : p.windowStart.toNat = base := by
    rw [hp.windowStart, toNat_toUInt64 (by omega)]
  have hmessageStart : p.messageStart.toNat = start := by
    rw [hp.messageStart, toNat_toUInt64 (by omega)]
  have hstop : stop.toNat = start + (stop - p.messageStart).toNat :=
    (congrArg UInt64.toNat (hp.stop_eq stop)).trans (toNat_toUInt64 (by omega))
  refine ⟨UInt64.le_iff_toNat_le.mpr ?_, UInt64.le_iff_toNat_le.mpr ?_, ?_⟩ <;> dsimp only <;> omega

theorem forall_inWindow {ds ds' : List (Delivery Message Progress)}
    (h : List.Forall₂ (Agrees content) ds ds') (hsize : content.length < 0x100000000) :
    ∀ d ∈ ds, InWindow d := by
  induction h with
  | nil => exact List.forall_mem_nil _
  | cons hd _ ih => exact List.forall_mem_cons.mpr ⟨hd.inWindow hsize, ih⟩

/-- The run over a file completes without a difference if the file is made of messages that are
encoded as they were read. -/
theorem completes_without_difference_iff (hsize : content.length < 0x100000000) :
    (runAtOnce settings content).Completes ∧ (runAtOnce settings content).state.mismatches = 0 ↔
      ∃ parts : List (Bytes × Message), (parts.map Prod.fst).flatten = content ∧
        ∀ part ∈ parts, Message.grammar.decode settings.limit part.1 = .ok part.2 ∧
          part.2.encode = .ok part.1 := by
  refine ⟨fun ⟨hcompletes, hclean⟩ => ?_, fun ⟨parts, hflatten, hboth⟩ => ?_⟩
  · obtain ⟨parts, behind, hcontent, hparts, hcovers, -, hmismatches, hall⟩ :=
      covers_atOnce settings hsize
    obtain rfl := hall hcompletes
    rw [hclean, UInt32.toNat_zero, hcovers.differences_eq] at hmismatches
    have hsame := countP_differs_eq_zero_iff.mp hmismatches.symm
    exact ⟨parts, (hcontent.trans (List.append_nil _)).symm, fun part hpart =>
      ⟨hparts part hpart, hsame part hpart⟩⟩
  · obtain ⟨hcompletes, hclean⟩ :=
      completes_atOnce hsize hflatten fun part hpart => (hboth part hpart).1
    refine ⟨hcompletes, UInt32.toNat_inj.mp ?_⟩
    rw [hclean, UInt32.toNat_zero, countP_differs_eq_zero_iff]
    exact fun part hpart => (hboth part hpart).2

/-- What is compared chunk by chunk is what is compared at once. -/
theorem agrees_atOnce (settings : Settings) (content : Bytes)
    (hchunk : 1 ≤ settings.chunk ∧ settings.chunk ≤ 0x7FFFFFFF) :
    List.Forall₂ (Agrees content)
      (callsInChunks (FileDecoder.new settings) {} (chunks settings.chunk content))
      (callsAtOnce settings content) :=
  (decodeChunks_chunks settings content hchunk).2.2

/-- A file that is read in chunks has as many messages and differences as at once. -/
theorem progress_atOnce (settings : Settings) (name content : Bytes)
    (hchunk : 1 ≤ settings.chunk ∧ settings.chunk ≤ 0x7FFFFFFF) :
    let p := (decodeSource settings name (.opened content none)).1.progress
    p.count = (runAtOnce settings content).state.count ∧
      p.mismatches = (runAtOnce settings content).state.mismatches := by
  intro p
  obtain ⟨⟨start, hreply⟩, -⟩ := decodeChunks_chunks settings content hchunk
  have hstate := congrArg Reply.state ((reply_decodeAtOnce settings content).symm.trans hreply)
  have hp : p = _ := progress_decodeSource settings name content none hchunk.2
  rw [hp]
  exact ⟨(congrArg Progress.count hstate).symm, (congrArg Progress.mismatches hstate).symm⟩

end

/-- **Every message is compared to its own bytes.** A file of less than 2^32 bytes is read in
chunks. It begins with messages in a row, and these are what the callback is called with. In each
call the window starts no later than the message and reaches its end, and the message is held
against its own bytes. The messages are counted, and so are those that are not encoded as they were
read. The file is clean exactly if it is made of messages that are. -/
theorem dumpFile_compares (settings : Settings) (name content : Bytes)
    (hchunk : 1 ≤ settings.chunk ∧ settings.chunk ≤ 0x7FFFFFFF)
    (hsize : content.length < 0x100000000) :
    let source : Source := .opened content none
    let p := (decodeSource settings name source).1.progress
    let ds := callsInChunks (FileDecoder.new settings) {} (chunks settings.chunk content)
    (∃ parts behind, content = (parts.map Prod.fst).flatten ++ behind ∧
      (∀ part ∈ parts, Message.grammar.decode settings.limit part.1 = .ok part.2) ∧
      Covers 0 parts ds) ∧
    (∀ d ∈ ds, InWindow d) ∧ p.count.toNat = ds.length ∧ p.mismatches.toNat = differences ds ∧
    ((dumpFile settings name source).isClean = true ↔
      ∃ parts : List (Bytes × Message), (parts.map Prod.fst).flatten = content ∧
        ∀ part ∈ parts, Message.grammar.decode settings.limit part.1 = .ok part.2 ∧
          part.2.encode = .ok part.1) := by
  intro source p ds
  have hagrees : List.Forall₂ (Agrees content) ds _ := agrees_atOnce settings content hchunk
  obtain ⟨hpcount, hpmismatches⟩ := progress_atOnce settings name content hchunk
  obtain ⟨parts, behind, hcontent, hparts, hcovers, hcount, hmismatches, -⟩ :=
    covers_atOnce settings hsize
  have hds : Covers 0 parts ds := hcovers.of_agrees hagrees
  refine ⟨⟨parts, behind, hcontent, hparts, hds⟩, forall_inWindow hagrees hsize, ?_, ?_, ?_⟩
  · rw [hpcount, hcount, hagrees.length_eq]
  · rw [hpmismatches, hmismatches, hds.differences_eq, hcovers.differences_eq]
  · rw [dumpFile_opened settings name content none hchunk, isClean_reportAtOnce_iff]
    exact completes_without_difference_iff hsize

/-- An unbind and an abandon request, read in chunks of three bytes. -/
theorem dumpFile_compares_unbind_abandon :
    let settings : Settings := {chunk := 3}
    let content : Bytes :=
      [0x30, 0x05, 0x02, 0x01, 0x02, 0x42, 0x00, 0x30, 0x06, 0x02, 0x01, 0x05, 0x50, 0x01, 0x03]
    let ds := callsInChunks (FileDecoder.new settings) {} (chunks settings.chunk content)
    (1 ≤ settings.chunk ∧ settings.chunk ≤ 0x7FFFFFFF) ∧ content.length < 0x100000000 ∧
      (∀ d ∈ ds, InWindow d) ∧
      (dumpFile settings [0x66] (.opened content none)).isClean = true := by
  intro settings content ds
  have hchunk : 1 ≤ settings.chunk ∧ settings.chunk ≤ 0x7FFFFFFF := by decide
  have hsize : content.length < 0x100000000 := by decide
  let parts : List (Bytes × Message) :=
    [([0x30, 0x05, 0x02, 0x01, 0x02, 0x42, 0x00], {id := 2, operation := .unbindRequest}),
      ([0x30, 0x06, 0x02, 0x01, 0x05, 0x50, 0x01, 0x03],
        {id := 5, operation := .abandonRequest, abandonedId := 3})]
  have hparts : ∀ part ∈ parts, Message.grammar.decode settings.limit part.1 = .ok part.2 ∧
      part.2.encode = .ok part.1 := by
    decide +kernel
  obtain ⟨-, hwindow, -, -, hclean⟩ := dumpFile_compares settings [0x66] content hchunk hsize
  exact ⟨hchunk, hsize, hwindow, hclean.mpr ⟨parts, rfl, hparts⟩⟩

end LdapBer.Dump
