import LdapBer.Proofs.Dn.Accepts

/-! Names and their text.

The relative names of a text and the separators behind them are the text cut into pieces
(`AreRdns.isPartition`), so a name is written as it was given (`toText_roundTrip`). -/
namespace LdapBer.Dn

/-- The relative names cut the text into pieces: in their order their raw texts and separators make
up the text. Each has one assertion, which takes up its raw text, and behind each but the last
stands a separator. -/
structure IsPartition (text : Bytes) (rdns : List Rdn) : Prop where
  pieces : text = (rdns.map fun rdn => rdn.rawText ++ rdn.separator.toList).flatten
  separators : ∃ front last, rdns = front ++ [last] ∧ last.separator = none ∧
    ∀ rdn ∈ front, rdn.separator = some 44 ∨ rdn.separator = some 59
  assertions : ∀ rdn ∈ rdns, ∃ ava, rdn.avas = [ava] ∧ ava.rawText = rdn.rawText ∧
    IsLaidOut ava.type ava.rawValue ava.rawText

theorem AreRdns.isPartition {text : Bytes} {rdns : List Rdn} (h : AreRdns text rdns) :
    IsPartition text rdns := by
  induction h with
  | @last ava hava =>
    exact {
      pieces := by simp
      separators := ⟨[], _, rfl, rfl, nofun⟩
      assertions := List.forall_mem_singleton.mpr ⟨ava, rfl, rfl, hava.text⟩ }
  | @more ava b s rdns hava hb _ ih =>
    obtain ⟨front, last, hrdns, hlast, hfront⟩ := ih.separators
    have hseparator : b = 44 ∨ b = 59 := by simpa [isSeparator] using hb
    exact {
      pieces := by
        rw [List.map_cons, List.flatten_cons, ← ih.pieces, List.append_assoc]
        rfl
      separators := ⟨_ :: front, last, congrArg _ hrdns, hlast, List.forall_mem_cons.mpr
        ⟨hseparator.imp (congrArg some) (congrArg some), hfront⟩⟩
      assertions := List.forall_mem_cons.mpr ⟨⟨ava, rfl, rfl, hava.text⟩, ih.assertions⟩ }

theorem IsPartition.toText_eq {text given : Bytes} {rdns : List Rdn} (h : IsPartition text rdns) :
    toText ⟨rdns, given⟩ = text := by
  rw [h.pieces, toText, List.flatMap_def]

/-- **A name is written as it was read.** The name of a text that is not blank is written as that
text, which its relative names and their separators cut into pieces. A blank text is the name of no
relative names. No reading ends with the complaint about what stands behind a value. -/
theorem toText_roundTrip (text : Bytes) :
    (∀ dn, scan text = .ok (true, dn) → ¬ AreSpaces text →
      dn.toText = text ∧ IsPartition text dn.rdns) ∧
    (AreSpaces text → scan text = .ok (true, ⟨[], text⟩) ∧ toText ⟨[], text⟩ = []) ∧
    ∀ b p, scan text ≠ .error (.name (.expectedSeparator b p)) := by
  refine ⟨fun dn h hspaces => ?_, fun h => ⟨scan_of_areSpaces h, rfl⟩, fun b p h => ?_⟩
  · obtain ⟨-, ⟨hblank, -⟩ | hrdns⟩ := scan_eq_simple_iff.mp h
    · exact absurd hblank hspaces
    · exact ⟨hrdns.isPartition.toText_eq, hrdns.isPartition⟩
  · obtain ⟨e, he, -, hseparator⟩ := fault_of_scan h
    exact hseparator b p (DnFailure.name.inj he).symm

/-- A name with spaces wherever they may stand, one value of which is empty, and a blank text. -/
theorem toText_roundTrip_spaces :
    let text := ascii " CN = John  Smith ;ou=  "
    let person : Ava := ⟨ascii "CN", ascii "cn", ascii "John  Smith", ascii "John  Smith",
      ascii " CN = John  Smith "⟩
    let unit : Ava := ⟨ascii "ou", ascii "ou", [], [], ascii "ou=  "⟩
    let dn : Dn := ⟨[⟨[person], person.rawText, some 59⟩, ⟨[unit], unit.rawText, none⟩], text⟩
    let blank := ascii "  "
    (scan text = .ok (true, dn) ∧ ¬ AreSpaces text ∧ dn.toText = text ∧ IsPartition text dn.rdns) ∧
      AreSpaces blank ∧ scan blank = .ok (true, ⟨[], blank⟩) := by
  intro text person unit dn blank
  have hread : scan text = .ok (true, dn) := by decide +kernel
  have hspaces : ¬ AreSpaces text := by decide
  have hblank : AreSpaces blank := by decide
  obtain ⟨hwritten, hpieces⟩ := (toText_roundTrip text).1 dn hread hspaces
  obtain ⟨-, hempty, -⟩ := toText_roundTrip blank
  exact ⟨⟨hread, hspaces, hwritten, hpieces⟩, hblank, (hempty hblank).1⟩

end LdapBer.Dn
