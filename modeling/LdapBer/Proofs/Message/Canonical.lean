import LdapBer.Proofs.Ber.Canonical
import LdapBer.Proofs.Message.Encoding
import LdapBer.Proofs.Message.Syntax

/-! Canonical messages.

A message has many byte strings: lengths and integers may be longer than they need be, a true
criticality may be any byte but zero, a false one may be there, and so may a control value that is
empty. What is canonical is said element by element (`IsCanonical`). Whatever tree a message was
read from, the tree that the encoder writes is canonical and no longer, and it is the same tree if
that one was canonical already (`canonicalises_message`). -/
namespace LdapBer

namespace Message

/-- The tags of numbers: of ids, of result codes and of the id in an abandon request. -/
def numberTags : List UInt8 := [0x02, 0x0A, 0x50]

/-- What makes an element of a message canonical, apart from what is inside it: the length field and
a number have the fewest bytes, a criticality is true and spelt by 0xFF, and a control has no value
or one that is not empty. -/
structure IsCanonicalElement (e : Tree) : Prop where
  length : IsShortestField e.content.length e.field
  number : e.tag ∈ numberTags → IsShortestInteger e.content
  criticality : e.tag = 0x01 → e.bytes = [0x01, 0x01, 0xFF]
  value : ∀ c, IsControl c e → c.value ≠ some []

def IsCanonical (t : Tree) : Prop :=
  ∀ e ∈ t.elements, IsCanonicalElement e

def AreCanonical (ts : List Tree) : Prop :=
  ∀ e ∈ Tree.elementsAll ts, IsCanonicalElement e

theorem areCanonical_append {ts us : List Tree} :
    AreCanonical (ts ++ us) ↔ AreCanonical ts ∧ AreCanonical us := by
  simp only [AreCanonical, Tree.elementsAll_append, List.forall_mem_append]

theorem areCanonical_singleton {t : Tree} : AreCanonical [t] ↔ IsCanonical t := by
  simp only [AreCanonical, IsCanonical, Tree.elementsAll, List.append_nil]

theorem isCanonical_leaf {tag : UInt8} {field value : Bytes} :
    IsCanonical (.leaf tag field value) ↔ IsCanonicalElement (.leaf tag field value) := by
  simp only [IsCanonical, Tree.elements, List.forall_mem_singleton]

theorem isCanonical_node {tag : UInt8} {field : Bytes} {ts : List Tree} :
    IsCanonical (.node tag field ts) ↔
      IsCanonicalElement (.node tag field ts) ∧ AreCanonical ts := by
  simp only [IsCanonical, AreCanonical, Tree.elements, List.forall_mem_cons]

theorem IsControl.tag_eq {c : Control} {t : Tree} (h : IsControl c t) : t.tag = 0x30 := by
  cases h
  rfl

/-! ### Canonical forms -/

abbrev Compacts : List Tree → List Tree → Prop :=
  Tree.Compacts IsCanonicalElement

abbrev Canonicalises : List Tree → List Tree → Prop :=
  Tree.Canonicalises IsCanonicalElement

theorem shortens : Tree.Shortens IsCanonicalElement :=
  fun _ h => h.length

section
variable {ts us : List Tree} {tag : UInt8} {field value : Bytes}

/-- The canonical form of a leaf, by that of its value. -/
theorem canonicalises_leaf {value' : Bytes} (ht : (Tree.leaf tag field value).WellFormed)
    (hle : value'.length ≤ value.length) (hnumber : tag ∈ numberTags → IsShortestInteger value')
    (hcriticality : tag = 0x01 → value' = [0xFF])
    (heq : IsCanonicalElement (.leaf tag field value) → value = value') :
    Canonicalises [.leaf tag field value] [.primitive tag value'] := by
  refine Tree.canonicalises_leaf shortens ht hle (fun hlt => ⟨?_, hnumber, ?_, ?_⟩) heq
  · exact Tree.isShortestField_lengthBytes hlt
  · intro h
    have hvalue := hcriticality h
    have h : tag = 0x01 := h
    rw [h, hvalue]
    rfl
  · intro c hc
    cases hc

/-- What is neither a number nor a criticality has only its length field to be made shorter. -/
theorem canonicalises_octets (ht : (Tree.leaf tag field value).WellFormed)
    (hnumber : tag ∉ numberTags) (hcriticality : tag ≠ 0x01) :
    Canonicalises [.leaf tag field value] [.primitive tag value] :=
  canonicalises_leaf ht (Nat.le_refl _) (fun h => absurd h hnumber)
    (fun h => absurd h hcriticality) fun _ => rfl

theorem isCanonicalElement_constructed (hlt : (Tree.bytesAll us).length < 0x100000000)
    (hconstructed : Tag.isConstructed tag = true)
    (hvalue : ∀ c, IsControl c (.constructed tag us) → c.value ≠ some []) :
    IsCanonicalElement (.constructed tag us) := by
  refine ⟨Tree.isShortestField_lengthBytes hlt, ?_, ?_, hvalue⟩
  · -- numbers are primitive
    intro hnumber
    have hnumber : tag ∈ numberTags := hnumber
    simp only [numberTags, List.mem_cons, List.not_mem_nil, or_false] at hnumber
    rcases hnumber with rfl | rfl | rfl <;> exact absurd hconstructed (by decide)
  · intro hflag
    have hflag : tag = 0x01 := hflag
    subst hflag
    exact absurd hconstructed (by decide)

theorem compacts_node (h : Compacts ts us) (ht : (Tree.node tag field ts).WellFormed)
    (hvalue : ∀ c, IsControl c (.constructed tag us) → c.value ≠ some []) :
    Compacts [.node tag field ts] [.constructed tag us] :=
  h.node ht (isCanonicalElement_constructed (h.content_lt ht) ht.2.1 hvalue)

/-- The canonical form of a node that is no control, by that of its children. -/
theorem canonicalises_node (h : Canonicalises ts us) (ht : (Tree.node tag field ts).WellFormed)
    (htag : tag ≠ 0x30) : Canonicalises [.node tag field ts] [.constructed tag us] :=
  h.node shortens ht (isCanonicalElement_constructed (h.content_lt ht) ht.2.1 fun _ hc =>
    absurd hc.tag_eq htag)

theorem eq_constructed (ht : (Tree.node tag field ts).WellFormed)
    (heq : AreCanonical ts → ts = us) (h : IsCanonical (.node tag field ts)) :
    Tree.node tag field ts = .constructed tag us :=
  Tree.eq_constructed shortens ht heq h

end

/-! ### The canonical form of operations -/

section
variable {t : Tree} {ts : List Tree} {tag : UInt8}

theorem canonicalises_number {n : Int} (h : IsNumber tag n t) (ht : t.WellFormed)
    (htag : tag ≠ 0x01) (hmem : tag ∈ numberTags) : Canonicalises [t] [.number tag n] := by
  obtain ⟨field, value, ⟨hpos, hle⟩, rfl, -⟩ := h
  have hne : value ≠ [] := List.ne_nil_of_length_pos hpos
  have hint : IsInt64 (ofTwosComplement value) := isInt64_ofTwosComplement hne hle
  refine canonicalises_leaf ht ?_ ?_ (fun h => absurd h htag) ?_
  · rw [length_integerBytes]
    exact integerLength_ofTwosComplement_le hne
  · intro _
    have hvalue := ofTwosComplement_integerBytes hint
    obtain ⟨hpos, hle⟩ := integerLength_bounds (ofTwosComplement value)
    rw [← length_integerBytes] at hpos hle
    rw [isShortestInteger_iff (List.ne_nil_of_length_pos hpos) hle, hvalue]
  · intro hcanonical
    exact (isShortestInteger_iff hne hle).mp (hcanonical.number hmem)

theorem canonicalises_text {s : Bytes} (h : IsText s t) (ht : t.WellFormed) :
    Canonicalises [t] [.text s] := by
  obtain ⟨field⟩ := h
  exact canonicalises_octets ht (by decide) (by decide)

theorem canonicalises_urls {urls : List Bytes} (h : List.Forall₂ IsUrl urls ts)
    (hts : Tree.AllWellFormed ts) : Canonicalises ts (urls.map .text) := by
  induction h with
  | nil => exact Tree.canonicalises_nil
  | cons hurl _ ih => exact (canonicalises_text hurl.1 hts.1).append (ih hts.2)

theorem canonicalises_referrals {urls : List Bytes} (h : AreReferrals urls ts)
    (hts : Tree.AllWellFormed ts) : Canonicalises ts (referralParts urls) := by
  cases h with
  | absent => exact Tree.canonicalises_nil
  | present field hurls =>
    rw [referralParts, if_neg hurls.1]
    exact canonicalises_node (canonicalises_urls hurls.2 hts.1.2.2.2) hts.1 (by decide)

theorem canonicalises_result {r : Result} (h : AreResult r ts) (hts : Tree.AllWellFormed ts) :
    Canonicalises ts (resultParts r) := by
  obtain ⟨hcode, hmatchedDn, hdiagnostic, hreferrals⟩ := h
  obtain ⟨ht, hu, hv, hrest⟩ := hts
  have hcode := canonicalises_number hcode ht (by decide) (by decide)
  have hmatchedDn := canonicalises_text hmatchedDn hu
  have hdiagnostic := canonicalises_text hdiagnostic hv
  exact ((hcode.append hmatchedDn).append hdiagnostic).append
    (canonicalises_referrals hreferrals hrest)

theorem canonicalises_operation {op : Message} (h : IsOperation op t) (ht : t.WellFormed) :
    Canonicalises [t] [op.operationTree] := by
  cases h with
  | unbindRequest | deleteRequest => exact canonicalises_octets ht (by decide) (by decide)
  | abandonRequest hid => exact canonicalises_number hid ht (by decide) (by decide)
  | response htag field hresult =>
    have hresult := canonicalises_result hresult ht.2.2.2
    cases htag <;> exact canonicalises_node hresult ht (by decide)
  | searchResultReference field hurls =>
    exact canonicalises_node (canonicalises_urls hurls.2 ht.2.2.2) ht (by decide)

/-! ### The canonical form of controls -/

theorem IsCanonicalElement.flag_eq {field : Bytes} {b : UInt8}
    (h : IsCanonicalElement (.leaf 0x01 field [b])) : b = 0xFF := by
  have hbytes : 0x01 :: (field ++ [b]) = [0x01, 0x01, 0xFF] := h.criticality rfl
  have hend : field ++ [b] = [0x01] ++ [0xFF] := List.tail_eq_of_cons_eq hbytes
  exact List.singleton_inj.mp (List.append_inj' hend rfl).2

/-- A flag that is there and false has no canonical form: it would not be there. -/
theorem canonicalises_flag {critical : Bool} (h : AreFlag critical ts)
    (hts : Tree.AllWellFormed ts) :
    Canonicalises ts (if critical then [.primitive 0x01 [0xFF]] else []) := by
  cases h with
  | absent => exact Tree.canonicalises_nil
  | present field b =>
    by_cases hb : b = 0
    · subst hb
      refine ⟨Tree.compacts_nil _, fun hcanonical => ?_⟩
      have hflag := (isCanonical_leaf.mp (areCanonical_singleton.mp hcanonical)).flag_eq
      exact absurd hflag (by decide)
    · rw [if_pos (bne_iff_ne.mpr hb)]
      refine canonicalises_leaf hts.1 (Nat.le_refl _) (fun h => absurd h (by decide))
        (fun _ => rfl) ?_
      intro hcanonical
      rw [hcanonical.flag_eq]

theorem compacts_value {c : Control} (h : AreValue c.value ts) (hts : Tree.AllWellFormed ts) :
    Compacts ts (if c.valueBytes = [] then [] else [.text c.valueBytes]) ∧
      (c.value ≠ some [] → AreCanonical ts →
        ts = if c.valueBytes = [] then [] else [.text c.valueBytes]) := by
  rw [Control.valueBytes]
  generalize c.value = value at h ⊢
  cases h with
  | absent => exact ⟨Tree.compacts_nil [], fun _ _ => rfl⟩
  | @present value t h =>
    have htext := canonicalises_text h hts.1
    rw [Option.getD_some]
    by_cases hvalue : value = []
    · rw [if_pos hvalue]
      exact ⟨Tree.compacts_nil _, fun hne => absurd (congrArg some hvalue) hne⟩
    · rw [if_neg hvalue]
      exact ⟨htext.toCompacts, fun _ => htext.eq⟩

/-- The presence of an empty value is lost. -/
theorem compacts_controlParts {c : Control} (h : AreControlParts c ts)
    (hts : Tree.AllWellFormed ts) :
    Compacts ts c.parts ∧ (c.value ≠ some [] → AreCanonical ts → ts = c.parts) := by
  obtain @⟨oid, critical, value, t, us, vs, hoid, -, hcritical, hvalue⟩ := h
  obtain ⟨ht, husvs⟩ := hts
  obtain ⟨hus, hvs⟩ := Tree.allWellFormed_append.mp husvs
  have hhead := (canonicalises_text hoid ht).append (canonicalises_flag hcritical hus)
  obtain ⟨hcompacts, heq⟩ := compacts_value (c := ⟨oid, critical, value⟩) hvalue hvs
  refine ⟨hhead.toCompacts.append hcompacts, fun hne hcanonical => ?_⟩
  have hcanonical : AreCanonical (([t] ++ us) ++ vs) := hcanonical
  obtain ⟨hfirst, hlast⟩ := areCanonical_append.mp hcanonical
  have hparts : ([t] ++ us) ++ vs = _ ++ _ :=
    congrArg₂ (· ++ ·) (hhead.eq hfirst) (heq hne hlast)
  exact hparts

/-- Past the identifier, nothing is written of a control that is empty. -/
theorem content_ne_nil_of_mem_tail {c : Control} : ∀ e ∈ c.parts.tail, e.content ≠ [] := by
  intro e he
  have he : e ∈ (if c.critical then [Tree.primitive 0x01 [0xFF]] else []) ++
      (if c.valueBytes = [] then [] else [.text c.valueBytes]) := he
  rcases List.mem_append.mp he with he | he
  · split at he
    · rw [List.mem_singleton.mp he]
      exact List.cons_ne_nil _ _
    · cases he
  · split at he
    · cases he
    · next hne =>
      rw [List.mem_singleton.mp he]
      exact hne

/-- Empty values are not written. -/
theorem value_of_isControl_tree {c c' : Control} (h : IsControl c' c.tree) :
    c'.value ≠ some [] := by
  obtain ⟨_, hparts⟩ := h
  have hcontent := content_ne_nil_of_mem_tail (c := c)
  generalize c.parts = ts at hparts hcontent
  obtain @⟨_, _, value, _, us, vs, -, -, -, hvalue⟩ := hparts
  intro hempty
  have hempty : value = some [] := hempty
  subst hempty
  obtain _ | ⟨htext⟩ := hvalue
  obtain ⟨field⟩ := htext
  exact hcontent _ (List.mem_append_right us List.mem_cons_self) rfl

theorem canonicalises_control {c : Control} (h : IsControl c t) (ht : t.WellFormed) :
    Canonicalises [t] [c.tree] := by
  have hc := h
  obtain ⟨field, hparts⟩ := h
  obtain ⟨hcompacts, heq⟩ := compacts_controlParts hparts ht.2.2.2
  refine ⟨compacts_node hcompacts ht fun _ hc => value_of_isControl_tree hc, fun hcanonical => ?_⟩
  have hcontrol := areCanonical_singleton.mp hcanonical
  -- the only thing that writing would lose is not there in a canonical control
  have hne := (isCanonical_node.mp hcontrol).1.value c hc
  rw [eq_constructed ht (heq hne) hcontrol, Control.tree]

theorem canonicalises_controls {cs : List Control} (h : AreControls cs ts)
    (hts : Tree.AllWellFormed ts) : Canonicalises ts (controlParts cs) := by
  cases h with
  | absent => exact Tree.canonicalises_nil
  | @present field _ us hne hcontrols =>
    rw [controlParts, if_neg hne]
    refine canonicalises_node ?_ hts.1 (by decide)
    exact Tree.canonicalises_map hcontrols hts.1.2.2.2 fun _ _ hc ht => canonicalises_control hc ht

/-! ### The canonical form of a message -/

theorem not_isControl_tree {m : Message} {c : Control} : ¬ IsControl c m.tree := by
  intro h
  obtain ⟨_, hparts⟩ := h
  generalize hts : m.parts = ts at hparts
  obtain ⟨⟨field⟩⟩ := hparts
  have htag : (0x02 : UInt8) = 0x04 := congrArg Tree.tag (List.head_eq_of_cons_eq hts)
  exact absurd htag (by decide)

theorem canonicalises_message {m : Message} (h : IsMessage m t) (ht : t.WellFormed) :
    Canonicalises [t] [m.tree] := by
  obtain @⟨field, ts, hparts⟩ := h
  have hchildren : Canonicalises ts m.parts := by
    obtain ⟨hid, hop, hcontrols⟩ := hparts
    obtain ⟨_, _, _, ht, hu, hts⟩ := ht
    have hid := canonicalises_number hid ht (by decide) (by decide)
    exact (hid.append (canonicalises_operation hop hu)).append
      (canonicalises_controls hcontrols hts)
  refine ⟨compacts_node hchildren.toCompacts ht fun c hc => absurd hc not_isControl_tree, ?_⟩
  intro hcanonical
  rw [eq_constructed ht hchildren.eq (areCanonical_singleton.mp hcanonical), tree]

end

end Message

end LdapBer
