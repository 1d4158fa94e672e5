import LdapBer.Proofs.Ber.Canonical
import LdapBer.Proofs.ControlValue.RoundTrip
import LdapBer.Proofs.Decode.Parse

/-! Control values read and written again.

A control value has many byte strings: lengths may be longer than they need be, and a flag may be
there although it is what it is by default, or be spelt by any byte. What is canonical is said
element by element (`Tree.IsCanonicalElement`). Whatever tree a value was read from, the tree that
is written for it is its canonical form (`SortRequest.canonicalises_tree`,
`SyncInfo.canonicalises_tree`). So nothing is lost when a value is written again, what is written is
no longer, and it is what was read exactly if that was canonical (`reencode_controlValues`). -/
namespace LdapBer

/-! ### Canonical elements -/

namespace Tree

/-- The length field has the fewest bytes, and a flag, which is told by its tag, is the byte `x`. -/
structure IsCanonicalElement (flag x : UInt8) (e : Tree) : Prop where
  length : IsShortestField e.content.length e.field
  content : e.tag = flag → e.content = [x]

section
variable {flag x tag : UInt8} {ts us : List Tree} {t : Tree}

theorem shortens (flag x : UInt8) : Shortens (IsCanonicalElement flag x) :=
  fun _ h => h.length

theorem isCanonicalElement_primitive {value : Bytes} (hflag : tag = flag → value = [x])
    (hlt : value.length < 0x100000000) : IsCanonicalElement flag x (primitive tag value) :=
  ⟨isShortestField_lengthBytes hlt, hflag⟩

theorem isCanonicalElement_constructed (hflag : tag ≠ flag)
    (hlt : (bytesAll us).length < 0x100000000) : IsCanonicalElement flag x (constructed tag us) :=
  ⟨isShortestField_lengthBytes hlt, fun h => absurd h hflag⟩

/-- What is no flag has only its length field to be made shorter. -/
theorem canonicalises_octets {field value : Bytes} (ht : (leaf tag field value).WellFormed)
    (hflag : tag ≠ flag) :
    Canonicalises (IsCanonicalElement flag x) [leaf tag field value] [primitive tag value] :=
  canonicalises_leaf (shortens flag x) ht (Nat.le_refl _)
    (isCanonicalElement_primitive fun h => absurd h hflag) fun _ => rfl

theorem canonicalises_constructed {field : Bytes}
    (h : Canonicalises (IsCanonicalElement flag x) ts us) (ht : (node tag field ts).WellFormed)
    (hflag : tag ≠ flag) :
    Canonicalises (IsCanonicalElement flag x) [node tag field ts] [constructed tag us] :=
  h.node (shortens flag x) ht (isCanonicalElement_constructed hflag (h.content_lt ht))

theorem canonicalises_octetParts {octets : Option Bytes} (h : AreOptionalOctets tag octets ts)
    (hts : AllWellFormed ts) (hflag : tag ≠ flag) :
    Canonicalises (IsCanonicalElement flag x) ts (octetParts tag octets) := by
  cases h with
  | absent => exact canonicalises_nil
  | present field hoctets =>
    cases hoctets
    exact canonicalises_octets hts.1 hflag

/-- A flag that is there by default has no canonical form: it would not be there. -/
theorem canonicalises_flagParts {default b : Bool} (h : AreOptionalFlag flag default b ts)
    (hts : AllWellFormed ts) :
    Canonicalises (IsCanonicalElement flag (if default then 0x00 else 0xFF)) ts
      (flagParts flag default b) := by
  rw [flagParts]
  cases h with
  | absent =>
    rw [if_pos rfl]
    exact canonicalises_nil
  | present field hb =>
    obtain ⟨y, rfl, rfl⟩ := hb
    by_cases hy : (y != 0) = default
    · rw [if_pos hy]
      refine ⟨compacts_nil _, fun hcanonical => ?_⟩
      have hcontent := (hcanonical _ List.mem_cons_self).content rfl
      obtain rfl := List.singleton_inj.mp hcontent
      cases default <;> exact absurd hy (by decide)
    · rw [if_neg hy]
      have hspelt : (if (y != 0) = true then 0xFF else 0x00 : UInt8) =
          if default = true then 0x00 else 0xFF := by
        cases default <;> simp_all
      rw [hspelt]
      refine canonicalises_leaf (shortens _ _) hts.1 (Nat.le_refl _)
        (isCanonicalElement_primitive fun _ => rfl) fun hcanonical => ?_
      exact hcanonical.content rfl

/-- Of a tree that was read, the tree that is written is no longer, and the same exactly if the one
that was read is canonical. -/
theorem Canonicalises.bytes_eq_iff {P : Tree → Prop} {u : Tree} (h : Canonicalises P [t] [u])
    (ht : t.WellFormed) : u.bytes.length ≤ t.bytes.length ∧
      (u.bytes = t.bytes ↔ ∀ e ∈ t.elements, P e) := by
  have hle := h.le
  have heq := h.eq
  have hcanonical := h.canonical
  simp only [bytesAll, List.append_nil, elementsAll_singleton, List.singleton_inj]
    at hle heq hcanonical
  refine ⟨hle, fun hbytes => ?_, fun hall => ?_⟩
  · have hsame : u = t := Parses.unique ⟨ht, rfl⟩ ⟨h.wellFormed.1, hbytes⟩
    rwa [hsame] at hcanonical
  · rw [heq hall]

theorem Parses.exists_iff {C : Tree → Prop} (ht : t.WellFormed) :
    (∃ u, Parses t.bytes u ∧ C u) ↔ C t := by
  refine ⟨fun h => ?_, fun h => ⟨t, ⟨ht, rfl⟩, h⟩⟩
  obtain ⟨u, hu, h⟩ := h
  rwa [Parses.unique ⟨ht, rfl⟩ hu] at h

end

end Tree

/-! ### Sort requests -/

theorem SortKey.writtenRule_ofParts (attributeType : Bytes) (rule : Option Bytes) (reverse : Bool) :
    (ofParts attributeType rule reverse).writtenRule = rule := by
  cases rule <;> rfl

namespace SortRequest

/-- All lengths are the shortest, and a reversal that is there is true and spelt by 0xFF. -/
def IsCanonical (t : Tree) : Prop :=
  ∀ e ∈ t.elements, Tree.IsCanonicalElement reverseOrderTag 0xFF e

section
variable {r : SortRequest} {k : SortKey} {t : Tree}

theorem canonicalises_key (h : IsKey k t) (ht : t.WellFormed) :
    Tree.Canonicalises (Tree.IsCanonicalElement 0x81 0xFF) [t] [keyTree k] := by
  obtain ⟨field, hparts⟩ := h
  obtain ⟨_, -, hrule, hreverse⟩ := hparts
  refine Tree.canonicalises_constructed ?_ ht (by decide)
  obtain ⟨htype, hts⟩ := ht.2.2.2
  obtain ⟨hrules, hreverses⟩ := Tree.allWellFormed_append.mp hts
  rw [keyParts, SortKey.writtenRule_ofParts]
  exact (Tree.canonicalises_octets htype (by decide)).append
    ((Tree.canonicalises_octetParts hrule hrules (by decide)).append
      (Tree.canonicalises_flagParts hreverse hreverses))

theorem canonicalises_tree (h : IsSortRequest r t) (ht : t.WellFormed) :
    Tree.Canonicalises (Tree.IsCanonicalElement 0x81 0xFF) [t] [r.tree] := by
  obtain ⟨field, -, hkeys⟩ := h
  refine Tree.canonicalises_constructed ?_ ht (by decide)
  exact Tree.canonicalises_map hkeys ht.2.2.2 fun _ _ hk ht => canonicalises_key hk ht

theorem IsKey.ne_nil (h : IsKey k t) : k.attributeType ≠ [] := by
  obtain ⟨_, ⟨_, hne, -, -⟩⟩ := h
  exact hne

/-- In a key that was decoded there is nothing that is not written. -/
theorem IsKey.normal_eq (h : IsKey k t) : k.normal = k := by
  obtain ⟨_, ⟨_, -, -, -⟩⟩ := h
  rw [SortKey.normal, SortKey.writtenRule_ofParts]
  rfl

theorem exists_isKey {keys : List SortKey} {ts : List Tree} (h : List.Forall₂ IsKey keys ts) :
    ∀ k ∈ keys, ∃ t, IsKey k t := by
  induction h with
  | nil => exact nofun
  | cons hk _ ih => exact List.forall_mem_cons.mpr ⟨⟨_, hk⟩, ih⟩

theorem IsSortRequest.ne_nil (h : IsSortRequest r t) : ∀ k ∈ r.keys, k.attributeType ≠ [] := by
  obtain ⟨_, -, hkeys⟩ := h
  intro k hk
  obtain ⟨_, hkey⟩ := exists_isKey hkeys k hk
  exact hkey.ne_nil

theorem IsSortRequest.normal_eq (h : IsSortRequest r t) : r.normal = r := by
  obtain ⟨_, -, hkeys⟩ := h
  have hkey : ∀ k ∈ r.keys, k.normal = id k := by
    intro k hk
    obtain ⟨_, hkey⟩ := exists_isKey hkeys k hk
    exact hkey.normal_eq
  rw [normal, List.map_congr_left hkey, List.map_id]

theorem reencode {b : Bytes} (h : decode b = .ok r) :
    ∃ e, encode r = .ok e ∧ e.length ≤ b.length ∧ decode e = .ok r ∧
      (e = b ↔ ∃ t, Tree.Parses b t ∧ IsCanonical t) := by
  obtain ⟨t, ht, rfl, hr⟩ := decode_iff_isSortRequest.mp h
  have hcanonical := canonicalises_tree hr ht
  have hwritten := hcanonical.wellFormed.1
  obtain ⟨hle, hiff⟩ := hcanonical.bytes_eq_iff ht
  have hne : r.keys ≠ [] := by
    obtain ⟨_, hne, -⟩ := hr
    exact hne
  refine ⟨r.tree.bytes, encode_eq_ok_iff.mpr ⟨hne, hwritten, rfl⟩, hle, ?_, ?_⟩
  · exact (decode_tree_iff hwritten hne).mpr ⟨hr.ne_nil, hr.normal_eq.symm⟩
  · exact hiff.trans (Tree.Parses.exists_iff (C := IsCanonical) ht).symm

end

end SortRequest

/-! ### Synchronisation -/

namespace SyncInfo

/-- All lengths are the shortest, and the flag is there only if it is not what it is by default: in
a set of identifiers as 0xFF, in a refresh as zero. -/
def IsCanonical (t : Tree) : Prop :=
  ∀ e ∈ t.elements,
    Tree.IsCanonicalElement Tag.boolean (if t.tag = kindTag .idSet then 0xFF else 0x00) e

section
variable {i : SyncInfo} {kind : SyncKind} {cookie : Option Bytes} {b : Bool} {uuids : List Uuid}
  {t : Tree}

theorem writtenCookie_refresh : (refresh kind cookie b).writtenCookie = cookie := by
  cases cookie <;> rfl

theorem writtenCookie_idSet : (idSet cookie b uuids).writtenCookie = cookie := by
  cases cookie <;> rfl

/-- In a message that was decoded there is nothing that is not written. -/
theorem IsSyncInfo.normal_eq (h : IsSyncInfo i t) : i.normal = i := by
  cases h with
  | newCookie => rfl
  | @refresh _ _ htag _ cookie =>
    cases htag <;> cases cookie <;> rfl
  | @idSet _ _ cookie => cases cookie <;> rfl

theorem canonicalises_uuid {x : UInt8} {u : Uuid} (h : IsUuid u t) (ht : t.WellFormed) :
    Tree.Canonicalises (Tree.IsCanonicalElement 0x01 x) [t] [uuidTree u] := by
  obtain ⟨field⟩ := h
  exact Tree.canonicalises_octets ht (by decide)

theorem canonicalises_refreshParts (kind : SyncKind) {ts us : List Tree}
    (hcookie : AreOptionalOctets 0x04 cookie ts) (hdone : AreOptionalFlag 0x01 true b us)
    (h : Tree.AllWellFormed (ts ++ us)) :
    Tree.Canonicalises (Tree.IsCanonicalElement 0x01 0x00) (ts ++ us)
      (refresh kind cookie b).refreshParts := by
  obtain ⟨hts, hus⟩ := Tree.allWellFormed_append.mp h
  rw [refreshParts, writtenCookie_refresh]
  exact (Tree.canonicalises_octetParts hcookie hts (by decide)).append
    (Tree.canonicalises_flagParts hdone hus)

theorem canonicalises_idSetParts {ts us vs : List Tree} {field : Bytes}
    (hcookie : AreOptionalOctets 0x04 cookie ts) (hdeletes : AreOptionalFlag 0x01 false b us)
    (huuids : List.Forall₂ IsUuid uuids vs)
    (h : Tree.AllWellFormed (ts ++ (us ++ [.node 0x31 field vs]))) :
    Tree.Canonicalises (Tree.IsCanonicalElement 0x01 0xFF) (ts ++ (us ++ [.node 0x31 field vs]))
      (idSet cookie b uuids).idSetParts := by
  obtain ⟨hts, h⟩ := Tree.allWellFormed_append.mp h
  obtain ⟨hus, hset, -⟩ := Tree.allWellFormed_append.mp h
  have huuids := Tree.canonicalises_map huuids hset.2.2.2 fun _ _ hu ht =>
    canonicalises_uuid (x := 0xFF) hu ht
  rw [idSetParts, writtenCookie_idSet]
  exact (Tree.canonicalises_octetParts hcookie hts (by decide)).append
    ((Tree.canonicalises_flagParts hdeletes hus).append
      (Tree.canonicalises_constructed huuids hset (by decide)))

theorem canonicalises_tree (h : IsSyncInfo i t) (ht : t.WellFormed) :
    Tree.Canonicalises
      (Tree.IsCanonicalElement Tag.boolean (if t.tag = kindTag .idSet then 0xFF else 0x00)) [t]
      [i.tree] := by
  cases h with
  | newCookie => exact Tree.canonicalises_octets ht (by decide)
  | @refresh kind _ htag field _ _ _ _ hcookie hdone =>
    have hparts := canonicalises_refreshParts kind hcookie hdone ht.2.2.2
    cases htag <;> exact Tree.canonicalises_constructed hparts ht (by decide)
  | idSet field setField hcookie hdeletes huuids =>
    have hparts := canonicalises_idSetParts hcookie hdeletes huuids ht.2.2.2
    exact Tree.canonicalises_constructed hparts ht (by decide)

theorem reencode {b : Bytes} (h : decode b = .ok i) :
    ∃ e, encode i = .ok e ∧ e.length ≤ b.length ∧ decode e = .ok i ∧
      (e = b ↔ ∃ t, Tree.Parses b t ∧ IsCanonical t) := by
  obtain ⟨t, ht, rfl, hi⟩ := decode_iff_isSyncInfo.mp h
  have hcanonical := canonicalises_tree hi ht
  have hwritten := hcanonical.wellFormed.1
  obtain ⟨hle, hiff⟩ := hcanonical.bytes_eq_iff ht
  have hagain := i.isSyncInfo_tree
  rw [hi.normal_eq] at hagain
  refine ⟨i.tree.bytes, encode_eq_ok_iff.mpr ⟨hwritten, rfl⟩, hle, ?_, ?_⟩
  · exact (decode_bytes_iff hwritten).mpr hagain
  · exact hiff.trans (Tree.Parses.exists_iff (C := IsCanonical) ht).symm

end

end SyncInfo

/-- **Nothing is lost when a control value is written again.** A sort request that was decoded is
written in no more bytes and decoded again to the same, and so is information about a
synchronisation. It is written as it came exactly if all lengths were the shortest and no flag stood
there that is so by default or is spelt in another way. -/
theorem reencode_controlValues :
    (∀ b r, SortRequest.decode b = .ok r →
      ∃ e, r.encode = .ok e ∧ e.length ≤ b.length ∧ SortRequest.decode e = .ok r ∧
        (e = b ↔ ∃ t, Tree.Parses b t ∧ SortRequest.IsCanonical t)) ∧
    ∀ b i, SyncInfo.decode b = .ok i →
      ∃ e, i.encode = .ok e ∧ e.length ≤ b.length ∧ SyncInfo.decode e = .ok i ∧
        (e = b ↔ ∃ t, Tree.Parses b t ∧ SyncInfo.IsCanonical t) :=
  ⟨fun _ _ => SortRequest.reencode, fun _ _ => SyncInfo.reencode⟩

/-- A key with an empty rule and a reversal that is 1, behind a long length, and a refresh with an
empty cookie that says that it is done. -/
theorem reencode_controlValues_padded :
    let b : Bytes :=
      [0x30, 0x0C, 0x30, 0x81, 0x09, 0x04, 0x02, 0x63, 0x6E, 0x80, 0x00, 0x81, 0x01, 0x01]
    let r : SortRequest := ⟨[⟨[0x63, 0x6E], true, [], true⟩]⟩
    let c : Bytes := [0xA1, 0x05, 0x04, 0x00, 0x01, 0x01, 0xFF]
    let i : SyncInfo := ⟨.refreshDelete, true, [], true, false, []⟩
    (SortRequest.decode b = .ok r ∧
      ∃ e, r.encode = .ok e ∧ e.length ≤ b.length ∧ SortRequest.decode e = .ok r ∧
        (e = b ↔ ∃ t, Tree.Parses b t ∧ SortRequest.IsCanonical t)) ∧
    (SyncInfo.decode c = .ok i ∧
      ∃ e, i.encode = .ok e ∧ e.length ≤ c.length ∧ SyncInfo.decode e = .ok i ∧
        (e = c ↔ ∃ t, Tree.Parses c t ∧ SyncInfo.IsCanonical t)) := by
  intro b r c i
  have hrequest : SortRequest.decode b = .ok r := by decide +kernel
  have hinfo : SyncInfo.decode c = .ok i := by decide +kernel
  obtain ⟨hsort, hsync⟩ := reencode_controlValues
  exact ⟨⟨hrequest, hsort b r hrequest⟩, hinfo, hsync c i hinfo⟩

end LdapBer
