import LdapBer.Proofs.Ber.Layout
import LdapBer.Proofs.Ber.Shortest

/-! Headers as they are written and read.

A header is written with the shortest length field. It is read back from its bytes and not from
fewer, and a header that is read has at least as many bytes as one that is written; it has as many
exactly if it is the one that is written (`read_inverts_bytes`). -/
namespace LdapBer.Header

section
variable {tag : UInt8} {n : Nat} {offset : UInt64}

theorem write_header (hn : n < 0x100000000) {w : Writer} (hroom : 1 + lengthSize n ≤ w.remaining) :
    w.write (Layout.header tag n) =
      (⟨w.out ++ bytes tag n, w.remaining - (1 + lengthSize n)⟩, none) := by
  have hspells : (Layout.header tag n).Spells (bytes tag n) := Layout.spells_header.mpr ⟨hn, rfl⟩
  have hlength := length_bytes tag n
  exact Layout.write_eq_none_iff.mpr ⟨bytes tag n, hspells, by omega, by rw [hlength]⟩

theorem read_bytes (htag : Tag.number tag ≠ 31) (hn : n < 0x100000000) (offset : UInt64)
    (rest : Bytes) :
    read offset (bytes tag n ++ rest) = .ok (some (⟨tag, n, offset, 1 + lengthSize n⟩, rest)) := by
  have hread := read_field htag (lengthField_lengthBytes hn) offset rest
  rwa [length_lengthBytes] at hread

/-- A header that ends with the input cannot be read from less of it. -/
theorem read_of_append {s t : Bytes} {h : Header} (hr : read offset (s ++ t) = .ok (some (h, [])))
    (ht : t ≠ []) : read offset s = .ok none := by
  by_contra hdecided
  rw [read_append offset s t hdecided] at hr
  cases hs : read offset s with
  | error e =>
    rw [hs] at hr
    cases hr
  | ok answer =>
    cases answer with
    | none => exact hdecided hs
    | some answer =>
      rw [hs] at hr
      have hrest : answer.2 ++ t = [] := by
        injection hr with hr
        injection hr with hr
        exact congrArg Prod.snd hr
      exact ht (List.append_eq_nil_iff.mp hrest).2

section
variable {s rest : Bytes} {h : Header}

theorem lengthSize_le_of_read (hr : read offset s = .ok (some (h, rest))) :
    1 + lengthSize h.length ≤ h.size := by
  obtain ⟨field, hfield, -, -, hsize, -⟩ := field_of_read hr
  rw [hsize]
  exact Nat.add_le_add_left hfield.lengthSize_le 1

/-- The bytes of a header that is read are as few as can be exactly if they are those written. -/
theorem size_eq_iff_of_read (hr : read offset s = .ok (some (h, rest))) :
    h.size = 1 + lengthSize h.length ↔ s.take h.size = bytes h.tag h.length := by
  obtain ⟨field, hfield, -, -, hsize, rfl⟩ := field_of_read hr
  have htake : (h.tag :: (field ++ rest)).take h.size = h.tag :: field := by
    rw [hsize, Nat.add_comm, List.take_succ_cons, List.take_left]
  rw [htake, bytes, List.cons_inj_right]
  refine ⟨fun heq => hfield.eq_lengthBytes (by omega), fun heq => ?_⟩
  rw [hsize, heq, length_lengthBytes]

end

end

/-- **Reading inverts writing, and takes no header that is shorter.** A header is written in the
shortest form. It is read back whatever follows, with its size and the place behind it, and of fewer
of its bytes nothing can be said yet. What is read as a header has as many bytes as would be written
for it, or more; as many only if it is what would be written. And what has been decided about some
bytes, a header or an error, stays so when more come. -/
theorem read_inverts_bytes :
    (∀ (tag : UInt8) (n : Nat), Tag.number tag < 31 → n < 0x100000000 →
      (∀ w : Writer, 1 + lengthSize n ≤ w.remaining →
        w.write (Layout.header tag n) =
          (⟨w.out ++ bytes tag n, w.remaining - (1 + lengthSize n)⟩, none)) ∧
      ∀ offset : UInt64,
        let h : Header := ⟨tag, n, offset, 1 + lengthSize n⟩
        h.size = (bytes tag n).length ∧ h.valueOffset = offset + (bytes tag n).length.toUInt64 ∧
        (∀ rest, read offset (bytes tag n ++ rest) = .ok (some (h, rest))) ∧
        ∀ s, s <+: bytes tag n → s ≠ bytes tag n → read offset s = .ok none) ∧
    ∀ (offset : UInt64) (s : Bytes),
      (∀ h rest, read offset s = .ok (some (h, rest)) →
        1 + lengthSize h.length ≤ h.size ∧
        (h.size = 1 + lengthSize h.length ↔ s.take h.size = bytes h.tag h.length)) ∧
      (read offset s ≠ .ok none → ∀ t, read offset (s ++ t) =
        (read offset s).map (Option.map fun answer => (answer.1, answer.2 ++ t))) := by
  refine ⟨fun tag n hnumber hn => ⟨fun w => write_header hn, fun offset => ?_⟩, fun offset s => ?_⟩
  · have htag : Tag.number tag ≠ 31 := UInt8.ne_of_lt hnumber
    have hsize := (length_bytes tag n).symm
    refine ⟨hsize, congrArg (offset + ·.toUInt64) hsize, read_bytes htag hn offset,
      fun s hs hne => ?_⟩
    obtain ⟨t, ht⟩ := hs
    have hread := read_bytes htag hn offset []
    rw [List.append_nil, ← ht] at hread
    refine read_of_append hread fun hnil => hne ?_
    rw [← ht, hnil, List.append_nil]
  · exact ⟨fun h rest hr => ⟨lengthSize_le_of_read hr, size_eq_iff_of_read hr⟩,
      fun hs t => read_append offset s t hs⟩

/-- The header of a sequence of 200 bytes, with and without a needless zero. -/
theorem read_inverts_bytes_sequence :
    let header : Bytes := [0x30, 0x81, 0xC8]
    let padded : Bytes := [0x30, 0x82, 0x00, 0xC8]
    (Writer.mk [0x05] 4).write (Layout.header 0x30 200) = (⟨[0x05, 0x30, 0x81, 0xC8], 1⟩, none) ∧
      read 7 (header ++ [0x02]) = .ok (some (⟨0x30, 200, 7, 3⟩, [0x02])) ∧
      read 7 [0x30, 0x81] = .ok none ∧
      read 7 padded = .ok (some (⟨0x30, 200, 7, 4⟩, [])) ∧ 1 + lengthSize 200 ≤ 4 ∧
      (4 = 1 + lengthSize 200 ↔ padded.take 4 = bytes 0x30 200) ∧
      read 7 (padded ++ [0x02]) = .ok (some (⟨0x30, 200, 7, 4⟩, [0x02])) := by
  intro header padded
  have hread : read 7 padded = .ok (some (⟨0x30, 200, 7, 4⟩, [])) := by decide
  have hdecided : read 7 padded ≠ .ok none := by decide
  obtain ⟨hwritten, hgiven⟩ := read_inverts_bytes
  obtain ⟨hwrite, hback⟩ := hwritten 0x30 200 (by decide) (by decide)
  obtain ⟨-, -, hrest, hcut⟩ := hback 7
  obtain ⟨hlong, hmore⟩ := hgiven 7 padded
  obtain ⟨hle, heq⟩ := hlong _ _ hread
  exact ⟨hwrite ⟨[0x05], 4⟩ (by decide), hrest [0x02],
    hcut [0x30, 0x81] ⟨[0xC8], by decide⟩ (by decide), hread, hle, heq, hmore hdecided [0x02]⟩

end LdapBer.Header
