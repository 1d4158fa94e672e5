import Mathlib.Data.List.Forall2
import LdapBer.Proofs.Decode.Retained
import LdapBer.Proofs.Dump.Window

/-! The chunks in which a file is read.

Between two reads the window begins with the message under way (`Ready`). So feeding the chunks does
what feeding them with a window onto the whole file does (`decodeChunks_ahead`), and then the cuts
between them do not show. The report on a file is the one that there would be if it was decoded in
one call (`dumpFile_opened`), for chunks of any size (`dumpFile_chunk`). -/
namespace LdapBer.Dump
variable {file : Bytes} {hex : Bool} {fed start : Nat} {p : Progress}

/-! ### Chunks -/

/-- The calls of the callback while the chunks of a file are decoded. -/
def callsInChunks (d : FileDecoder) (p : Progress) :
    List Bytes → List (Delivery Message Progress)
  | [] => []
  | chunk :: rest =>
    let (d', reply) := d.decode chunk (p.appendChunk chunk)
    d.calls chunk (p.appendChunk chunk) ++
      if reply.error.isSome then [] else callsInChunks d' reply.state.slide rest

section
variable {d : FileDecoder} {chunk : Bytes}

theorem decodeChunks_cons_of_ok (hd : d.isFailed = false)
    (h : (d.fed chunk (p.appendChunk chunk)).error = none) (rest : List Bytes) :
    let f := d.fed chunk (p.appendChunk chunk)
    let next := decodeChunks (d.decode chunk (p.appendChunk chunk)).1 f.state.slide rest
    decodeChunks d p (chunk :: rest) = {next with events := f.events ++ next.events} := by
  rw [decodeChunks]
  dsimp only
  rw [Decoder.reply_of_decode hd, h]

theorem decodeChunks_cons_of_error (hd : d.isFailed = false)
    (h : (d.fed chunk (p.appendChunk chunk)).error ≠ none) (rest : List Bytes) :
    let f := d.fed chunk (p.appendChunk chunk)
    decodeChunks d p (chunk :: rest) =
      ⟨(d.decode chunk (p.appendChunk chunk)).1, f.state, f.events, f.error⟩ := by
  obtain ⟨e, he⟩ := Option.ne_none_iff_exists'.mp h
  rw [decodeChunks]
  dsimp only
  rw [Decoder.reply_of_decode hd, he]

theorem callsInChunks_cons_of_ok (hd : d.isFailed = false)
    (h : (d.fed chunk (p.appendChunk chunk)).error = none) (rest : List Bytes) :
    callsInChunks d p (chunk :: rest) =
      d.calls chunk (p.appendChunk chunk) ++
        callsInChunks (d.decode chunk (p.appendChunk chunk)).1
          (d.fed chunk (p.appendChunk chunk)).state.slide rest := by
  rw [callsInChunks]
  dsimp only
  rw [Decoder.reply_of_decode hd, h]
  rfl

theorem callsInChunks_cons_of_error (hd : d.isFailed = false)
    (h : (d.fed chunk (p.appendChunk chunk)).error ≠ none) (rest : List Bytes) :
    callsInChunks d p (chunk :: rest) = d.calls chunk (p.appendChunk chunk) := by
  obtain ⟨e, he⟩ := Option.ne_none_iff_exists'.mp h
  rw [callsInChunks]
  dsimp only
  rw [Decoder.reply_of_decode hd, he]
  exact List.append_nil _

/-- Between two reads the window begins with the message under way. -/
structure Ready (file : Bytes) (hex : Bool) (fed start : Nat) (d : FileDecoder) (p : Progress) :
    Prop where
  isFailed : d.isFailed = false
  callback : d.callback = some (Progress.take hex)
  shows : Shows file fed start start p
  follows : Follows d.grammar d.limit fed start d.container d.pending
  pending : d.pending.length < 0x200000000

theorem ready_new (file : Bytes) (settings : Settings) :
    Ready file settings.hex 0 0 (FileDecoder.new settings) {} where
  isFailed := rfl
  callback := rfl
  shows := ⟨rfl, rfl, rfl, Nat.le_refl 0, Nat.le_refl 0, Nat.zero_le _, by decide⟩
  follows := ⟨0, [], .begin, rfl, Nat.le_refl 0⟩
  pending := Nat.zero_lt_succ _

/-- A decoder of which the window slides behind every message. -/
def sliding (hex : Bool) (d : FileDecoder) : FileDecoder :=
  d.setCallback (some (Progress.takeAndSlide hex))

theorem Ready.decode (h : Ready file hex fed start d p) {more : Bytes}
    (hfile : file.drop fed = chunk ++ more) (hchunk : chunk.length ≤ 0x7FFFFFFF) :
    let f := d.fed chunk (p.appendChunk chunk)
    ∃ start', (sliding hex d).fed chunk (p.ahead file start) =
        {f with state := f.state.ahead file start'} ∧
      (f.error = none → Ready file hex (fed + chunk.length) start'
        (d.decode chunk (p.appendChunk chunk)).1 f.state.slide) ∧
      List.Forall₂ (Agrees file) (d.calls chunk (p.appendChunk chunk))
        ((sliding hex d).calls chunk (p.ahead file start)) := by
  intro f
  obtain ⟨n, message, hsession, hn, hread⟩ := h.follows
  have hpending := h.pending
  have hfollows : Follows d.grammar d.limit (fed + chunk.length) start d.container
      (d.pending ++ chunk) := by
    refine ⟨n, message, hsession, hn, ?_⟩
    rw [List.length_append]
    omega
  have hnear : start - start + d.container.started.toNat * 0x200000000 +
      (d.pending ++ chunk).length < 0x10000000000000000 := by
    have hstarted := Bool.toNat_le d.container.started
    rw [List.length_append]
    omega
  obtain ⟨start', hshows, hfeed, hrest, hcalls⟩ :=
    feed_ahead (h.shows.appendChunk hfile) hex hfollows hnear
  have hf : f = feed d.grammar d.limit (some (Progress.take hex)) d.container (d.pending ++ chunk)
      (p.appendChunk chunk) := by
    rw [← h.callback]
    rfl
  rw [← hf] at hshows hfeed hrest
  refine ⟨start', hfeed, fun herror => ?_, ?_⟩
  · have hwaits := (session_of_feed hsession (d.pending ++ chunk) (p.appendChunk chunk) herror).1
    rw [Decoder.decode_eq h.isFailed herror]
    exact ⟨h.isFailed, h.callback, hshows.slide, hrest herror, hwaits.beginsElement.length_lt⟩
  · rw [Decoder.calls, h.callback]
    exact hcalls

/-- Decoding a file in chunks does what feeding them to a decoder does of which the window shows all
of the file and slides behind every message. -/
theorem decodeChunks_ahead (h : Ready file hex fed start d p) (chunks : List Bytes)
    (hfile : file.drop fed = chunks.flatten)
    (hchunks : ∀ chunk ∈ chunks, chunk.length ≤ 0x7FFFFFFF) :
    let r := decodeChunks d p chunks
    let w := (sliding hex d).decodeAll chunks (p.ahead file start)
    (∃ start', w.2 = ⟨r.progress.ahead file start', r.events, r.error⟩) ∧
      (r.error = none → w.1 = sliding hex r.decoder) ∧
      List.Forall₂ (Agrees file) (callsInChunks d p chunks)
        ((sliding hex d).callsAll chunks (p.ahead file start)) := by
  induction chunks generalizing d p fed start with
  | nil => exact ⟨⟨start, rfl⟩, fun _ => rfl, .nil⟩
  | cons chunk chunks ih =>
    have hd : (sliding hex d).isFailed = false := h.isFailed
    rw [List.flatten_cons] at hfile
    obtain ⟨hchunk, hchunks⟩ := List.forall_mem_cons.mp hchunks
    obtain ⟨start', hfed, hready, hcalls⟩ := h.decode hfile hchunk
    by_cases herror : (d.fed chunk (p.appendChunk chunk)).error = none
    · have hsliding : ((sliding hex d).fed chunk (p.ahead file start)).error = none := by
        rw [hfed]
        exact herror
      have hdecoder : ((sliding hex d).decode chunk (p.ahead file start)).1 =
          sliding hex (d.decode chunk (p.appendChunk chunk)).1 := by
        rw [Decoder.decode_eq hd hsliding, Decoder.decode_eq h.isFailed herror, hfed]
        rfl
      have hdrop : file.drop (fed + chunk.length) = chunks.flatten := by
        rw [← List.drop_drop, hfile, List.drop_left]
      obtain ⟨⟨last, hreply⟩, hfinal, hrest⟩ := ih (hready herror) hdrop hchunks
      rw [decodeChunks_cons_of_ok h.isFailed herror, callsInChunks_cons_of_ok h.isFailed herror,
        Decoder.decodeAll_cons_of_ok hd hsliding, Decoder.callsAll_cons_of_ok hd hsliding, hdecoder,
        hfed]
      refine ⟨⟨last, ?_⟩, hfinal, ?_⟩
      · exact congrArg (Reply.after (d.fed chunk (p.appendChunk chunk)).events) hreply
      · exact List.rel_append hcalls hrest
    · have hsliding : ((sliding hex d).fed chunk (p.ahead file start)).error ≠ none := by
        rw [hfed]
        exact herror
      rw [decodeChunks_cons_of_error h.isFailed herror,
        callsInChunks_cons_of_error h.isFailed herror,
        Decoder.decodeAll_cons_of_error hd hsliding, Decoder.callsAll_cons_of_error hd hsliding]
      refine ⟨⟨start', ?_⟩, fun hnone => absurd hnone herror, hcalls⟩
      rw [Decoder.reply_of_decode hd, hfed]

end

/-! ### Files -/

theorem flatten_chunks {n : Nat} (hn : n ≠ 0) (s : Bytes) : (chunks n s).flatten = s := by
  fun_induction chunks n s with
  | case1 s h => exact (h.resolve_left hn).symm
  | case2 s h ih => rw [List.flatten_cons, ih, List.take_append_drop]

theorem length_le_of_mem_chunks {n : Nat} {s : Bytes} :
    ∀ chunk ∈ chunks n s, chunk.length ≤ n := by
  fun_induction chunks n s with
  | case1 s h => exact nofun
  | case2 s h ih => exact List.forall_mem_cons.mpr ⟨List.length_take_le n s, ih⟩

/-- A fresh decoder of which the window slides behind every message. -/
def slidingDecoder (settings : Settings) : FileDecoder :=
  Decoder.new Message.grammar settings.limit (some (Progress.takeAndSlide settings.hex))

theorem sliding_new (settings : Settings) :
    sliding settings.hex (FileDecoder.new settings) = slidingDecoder settings := rfl

/-- The whole file is decoded in one call. -/
def decodeAtOnce (settings : Settings) (content : Bytes) :
    FileDecoder × Reply Message.State Progress EncodeError :=
  (slidingDecoder settings).decode content {window := content}

theorem reply_decodeAtOnce (settings : Settings) (content : Bytes) :
    let f := feed Message.grammar settings.limit (some (Progress.takeAndSlide settings.hex))
      (.fresh Message.grammar 0) content {window := content}
    (decodeAtOnce settings content).2 = ⟨f.state, f.events, f.error⟩ :=
  Decoder.reply_of_decode (d := slidingDecoder settings) rfl content {window := content}

/-- The chunks in which a file is decoded do not show. -/
theorem decodeChunks_chunks (settings : Settings) (content : Bytes) {n : Nat}
    (hn : 1 ≤ n ∧ n ≤ 0x7FFFFFFF) :
    let r := decodeChunks (FileDecoder.new settings) {} (chunks n content)
    let w := decodeAtOnce settings content
    (∃ start, w.2 = ⟨r.progress.ahead content start, r.events, r.error⟩) ∧
      (r.error = none → w.1 = sliding settings.hex r.decoder) ∧
      List.Forall₂ (Agrees content) (callsInChunks (FileDecoder.new settings) {} (chunks n content))
        (calls Message.grammar settings.limit (some (Progress.takeAndSlide settings.hex))
          (.fresh Message.grammar 0) content {window := content}) := by
  intro r w
  have hflatten : (chunks n content).flatten = content := flatten_chunks (by omega) content
  have hle : ∀ chunk ∈ chunks n content, chunk.length ≤ 0x7FFFFFFF := fun chunk hchunk =>
    Nat.le_trans (length_le_of_mem_chunks chunk hchunk) hn.2
  obtain ⟨⟨start, hreply⟩, hdecoder, hcalls⟩ :=
    decodeChunks_ahead (ready_new content settings) (chunks n content) hflatten.symm hle
  have hwindow : ({} : Progress).ahead content 0 = {window := content} := rfl
  rw [sliding_new, hwindow] at hreply hdecoder hcalls
  rw [slidingDecoder, Decoder.reply_of_decodeAll_new, hflatten] at hreply
  rw [slidingDecoder, Decoder.callsAll_new, hflatten] at hcalls
  have hw : w.2 = ⟨r.progress.ahead content start, r.events, r.error⟩ :=
    (reply_decodeAtOnce settings content).trans hreply
  refine ⟨⟨start, hw⟩, fun herror => ?_, hcalls⟩
  have hwhole : ((slidingDecoder settings).decode (chunks n content).flatten
      {window := content}).2.error = none := by
    rw [hflatten]
    exact (congrArg Reply.error hw).trans herror
  have hdecode := Decoder.decoder_of_decodeAll_new (chunks n content) hwhole
  rw [hflatten] at hdecode
  exact hdecode.symm.trans (hdecoder herror)

theorem refusal_of_le {n : Nat} (h : n ≤ 0x7FFFFFFF) : Buffer.refusal n = none :=
  Buffer.refusal_of_lt (Nat.lt_of_le_of_lt h (by decide))

theorem finish_sliding (hex : Bool) (d : FileDecoder) :
    (sliding hex d).finish.2 = d.finish.2 := by
  obtain ⟨g, limit, callback, c, pending, isFailed⟩ := d
  cases isFailed with
  | true => rfl
  | false =>
    cases hstarted : c.started with
    | true => simp [Decoder.finish, sliding, Decoder.setCallback, hstarted]
    | false => cases pending <;> simp [Decoder.finish, sliding, Decoder.setCallback, hstarted]

theorem chunk_mod_readModulus {n : Nat} (h : n ≤ 0x7FFFFFFF) : n % readModulus = n :=
  Nat.mod_eq_of_lt (Nat.lt_of_le_of_lt h (by decide))

/-- The report on a file that is decoded in one call. -/
def reportAtOnce (settings : Settings) (name content : Bytes) (readError : Option Bytes) :
    FileReport :=
  let (decoder, reply) := decodeAtOnce settings content
  let abandoned : Option Abandonment :=
    match reply.error, readError with
    | some e, _ => some (.stream e)
    | none, some reason => some (.cannotRead name reason)
    | none, none => decoder.finish.2.map .stream
  { out := line (name ++ ascii ":") ++ reply.state.text ++ summary name reply.state abandoned
    trace := if settings.trace then Event.lines Message.grammar reply.events else []
    isClean := abandoned.isNone && reply.state.mismatches == 0 }

/-- What comes behind the last chunk does not change the progress. -/
theorem progress_decodeSource (settings : Settings) (name content : Bytes)
    (readError : Option Bytes) (h : settings.chunk ≤ 0x7FFFFFFF) :
    (decodeSource settings name (.opened content readError)).1.progress =
      (decodeChunks (FileDecoder.new settings) {} (chunks settings.chunk content)).progress := by
  simp only [decodeSource, refusal_of_le h, chunk_mod_readModulus h]
  cases (decodeChunks (FileDecoder.new settings) {} (chunks settings.chunk content)).error with
  | some e => rfl
  | none =>
    cases readError with
    | some reason =>
      dsimp only
      split <;> rfl
    | none => rfl

/-- Where a file is read in chunks, the report is that on the file in one piece. -/
theorem dumpFile_opened (settings : Settings) (name content : Bytes) (readError : Option Bytes)
    (h : 1 ≤ settings.chunk ∧ settings.chunk ≤ 0x7FFFFFFF) :
    dumpFile settings name (.opened content readError) =
      reportAtOnce settings name content readError := by
  have hpos : settings.chunk ≠ 0 := by omega
  obtain ⟨⟨start, hreply⟩, hdecoder, -⟩ := decodeChunks_chunks settings content h
  simp only [dumpFile, decodeSource, refusal_of_le h.2, chunk_mod_readModulus h.2, reportAtOnce]
  generalize decodeChunks (FileDecoder.new settings) {} (chunks settings.chunk content) = r at *
  generalize decodeAtOnce settings content = w at *
  obtain ⟨decoder, progress, events, error⟩ := r
  obtain ⟨decoder', reply⟩ := w
  dsimp only at hreply hdecoder
  subst hreply
  cases error with
  | some e => rfl
  | none =>
    obtain rfl := hdecoder rfl
    cases readError with
    | some reason => simp only [if_neg hpos]; rfl
    | none => simp only [finish_sliding]; rfl

end LdapBer.Dump
