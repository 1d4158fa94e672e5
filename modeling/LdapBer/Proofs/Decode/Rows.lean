import Mathlib.Data.List.Forall2
import LdapBer.Message.Grammar
import LdapBer.Proofs.Decode.Whole
import LdapBer.SortRequest
import LdapBer.SyncInfo

/-! Grammars given by rows.

The transitions of a grammar are told by one row for each state: which tags there are, where they
lead and what they do. What the grammar makes of an element is read off the row
(`HasRows.walk_leaf`, `HasRows.walk_node`). A row of children is asked for more than to be gone
through: at its end the element around it has to be allowed to end (`Ends`). So whoever knows what
the grammar makes of the children of the outermost element knows what it decodes
(`HasRows.read_node`, `decode_iff_of_read`). -/
namespace LdapBer

theorem lookup_eq_some_iff {α : Type} {l : List (UInt8 × α)} (h : (l.map Prod.fst).Nodup)
    {tag : UInt8} {a : α} : l.lookup tag = some a ↔ (tag, a) ∈ l := by
  induction l with
  | nil => simp
  | cons entry l ih =>
    obtain ⟨tag', a'⟩ := entry
    obtain ⟨hnew, hl⟩ := List.nodup_cons.mp h
    by_cases htag : tag = tag'
    · subst htag
      have hno (b : α) : (tag, b) ∉ l := fun hb => hnew (List.mem_map.mpr ⟨_, hb, rfl⟩)
      simp [hno, eq_comm]
    · have hbeq : (tag == tag') = false := beq_false_of_ne htag
      simp [List.lookup_cons, hbeq, htag, ih hl]

/-- A primitive element that may be left out and then has a value by default. What the bytes of the
value stand for is told by `R`. -/
inductive AreOptional {α : Type} (tag : UInt8) (R : α → Bytes → Prop) (default : α) :
    α → List Tree → Prop
  | absent : AreOptional tag R default default []
  | present {a : α} {value : Bytes} (field : Bytes) (h : R a value) :
      AreOptional tag R default a [.leaf tag field value]

namespace Grammar
variable {σ M : Type} {g : Grammar σ M} {frames : List (Frame σ)} {offset : UInt64} {s next : σ}
  {m m' : M} {b : Bool} {c' : Cursor σ M} {tag : UInt8} {t : Tree} {ts : List Tree}

/-! ### Rows of children -/

/-- The children are gone through, with the message `m'` at the end, and then the element around
them may end. -/
def Ends (g : Grammar σ M) (frames : List (Frame σ)) (offset : UInt64) (c : Cursor σ M)
    (ts : List Tree) (m' : M) : Prop :=
  ∃ s, g.walkAll frames offset c ts = .ok ⟨s, m', true⟩

theorem ends_nil : g.Ends frames offset ⟨s, m, b⟩ [] m' ↔ b = true ∧ m' = m := by
  simp only [Ends, walkAll_nil_eq_ok_iff, Cursor.mk.injEq]
  refine ⟨fun h => ?_, fun h => ?_⟩
  · obtain ⟨_, rfl, rfl, rfl⟩ := h
    exact ⟨rfl, rfl⟩
  · obtain ⟨rfl, rfl⟩ := h
    exact ⟨s, rfl, rfl, rfl⟩

theorem ends_cons {c : Cursor σ M} :
    g.Ends frames offset c (t :: ts) m' ↔
      ∃ d, g.walk frames offset c t = .ok d ∧
        g.Ends frames (t.header offset).valueEnd d ts m' := by
  simp only [Ends, walkAll_cons_eq_ok_iff]
  refine ⟨fun h => ?_, fun h => ?_⟩
  · obtain ⟨s, d, hd, hs⟩ := h
    exact ⟨d, hd, s, hs⟩
  · obtain ⟨d, hd, s, hs⟩ := h
    exact ⟨s, d, hd, hs⟩

/-- As long as no end is allowed something has to come. -/
theorem ends_step :
    g.Ends frames offset ⟨s, m, false⟩ ts m' ↔
      ∃ t us, ts = t :: us ∧ ∃ d, g.walk frames offset ⟨s, m, false⟩ t = .ok d ∧
        g.Ends frames (t.header offset).valueEnd d us m' := by
  cases ts with
  | nil => simp [ends_nil]
  | cons t ts =>
    rw [ends_cons]
    refine ⟨fun h => ?_, fun h => ?_⟩
    · exact ⟨t, ts, rfl, h⟩
    · obtain ⟨_, _, heq, h⟩ := h
      cases heq
      exact h

/-! ### Lists -/

section
variable {α : Type} {R : α → Tree → Prop} {put : M → α → M}

/-- If each element puts its value into the message and leads to a state where the next one is
expected, a row of them puts all the values there. -/
theorem ends_list
    (hstep : ∀ frames offset m t c', t.WellFormed →
      (g.walk frames offset ⟨next, m, true⟩ t = .ok c' ↔
        ∃ a, R a t ∧ c' = ⟨next, put m a, true⟩))
    (hts : Tree.AllWellFormed ts) :
    g.Ends frames offset ⟨next, m, true⟩ ts m' ↔
      ∃ as, List.Forall₂ R as ts ∧ m' = as.foldl put m := by
  induction ts generalizing offset m with
  | nil => simp [ends_nil]
  | cons t ts ih =>
    simp only [ends_cons, hstep _ _ _ _ _ hts.1]
    refine ⟨fun h => ?_, fun h => ?_⟩
    · obtain ⟨_, ⟨a, ha, rfl⟩, hrest⟩ := h
      obtain ⟨as, has, rfl⟩ := (ih hts.2).mp hrest
      exact ⟨a :: as, .cons ha has, rfl⟩
    · obtain ⟨as, has, rfl⟩ := h
      obtain _ | ⟨ha, has⟩ := has
      exact ⟨_, ⟨_, ha, rfl⟩, (ih hts.2).mpr ⟨_, has, rfl⟩⟩

/-- The first of them may come in another state. -/
theorem ends_list_cons
    (hfirst : ∀ frames offset m t c', t.WellFormed →
      (g.walk frames offset ⟨s, m, b⟩ t = .ok c' ↔
        ∃ a, R a t ∧ c' = ⟨next, put m a, true⟩))
    (hstep : ∀ frames offset m t c', t.WellFormed →
      (g.walk frames offset ⟨next, m, true⟩ t = .ok c' ↔
        ∃ a, R a t ∧ c' = ⟨next, put m a, true⟩))
    (hts : Tree.AllWellFormed ts) :
    g.Ends frames offset ⟨s, m, b⟩ ts m' ↔
      ∃ as, (as ≠ [] ∨ b = true) ∧ List.Forall₂ R as ts ∧ m' = as.foldl put m := by
  cases ts with
  | nil => simp [ends_nil]
  | cons t ts =>
    simp only [ends_cons, hfirst _ _ _ _ _ hts.1]
    refine ⟨fun h => ?_, fun h => ?_⟩
    · obtain ⟨_, ⟨a, ha, rfl⟩, hrest⟩ := h
      obtain ⟨as, has, rfl⟩ := (ends_list hstep hts.2).mp hrest
      exact ⟨a :: as, .inl nofun, .cons ha has, rfl⟩
    · obtain ⟨as, _, has, rfl⟩ := h
      obtain _ | ⟨ha, has⟩ := has
      exact ⟨_, ⟨_, ha, rfl⟩, (ends_list hstep hts.2).mpr ⟨_, has, rfl⟩⟩

/-- As long as no end is allowed there has to be a first one. -/
theorem ends_list_pos
    (hfirst : ∀ frames offset m t c', t.WellFormed →
      (g.walk frames offset ⟨s, m, false⟩ t = .ok c' ↔
        ∃ a, R a t ∧ c' = ⟨next, put m a, true⟩))
    (hstep : ∀ frames offset m t c', t.WellFormed →
      (g.walk frames offset ⟨next, m, true⟩ t = .ok c' ↔
        ∃ a, R a t ∧ c' = ⟨next, put m a, true⟩))
    (hts : Tree.AllWellFormed ts) :
    g.Ends frames offset ⟨s, m, false⟩ ts m' ↔
      ∃ as, as ≠ [] ∧ List.Forall₂ R as ts ∧ m' = as.foldl put m := by
  rw [ends_list_cons hfirst hstep hts]
  simp

end

/-! ### Elements -/

/-- The row of a state has the tags that may come next in it, each of them once. -/
structure HasRows (g : Grammar σ M) (row : σ → List (UInt8 × Transition σ M)) : Prop where
  transition : ∀ s tag, g.transition s tag = (row s).lookup tag
  nodup : ∀ s, ((row s).map Prod.fst).Nodup

namespace HasRows
variable {row : σ → List (UInt8 × Transition σ M)} {tr : Transition σ M} {act : Action σ M}
  {m₁ : M} {b₁ : Bool} {close : Close σ} {field value : Bytes} {children : List Tree}

theorem transition_eq_some_iff (hg : g.HasRows row) :
    g.transition s tag = some tr ↔ (tag, tr) ∈ row s := by
  rw [hg.transition]
  exact lookup_eq_some_iff (hg.nodup s)

theorem visit_iff (hg : g.HasRows row) {e : Element σ} :
    g.visit ⟨s, m, b⟩ e = .ok c' ↔
      ∃ tr, (e.header.tag, tr) ∈ row s ∧
        ∃ m' b', tr.act e m = .ok (m', b') ∧ c' = ⟨tr.next, m', b'⟩ := by
  simp only [visit_eq_ok_iff, hg.transition_eq_some_iff]

theorem visit_of_mem (hg : g.HasRows row) {e : Element σ} (h : (e.header.tag, tr) ∈ row s) :
    g.visit ⟨s, m, b⟩ e = .ok c' ↔
      ∃ m' b', tr.act e m = .ok (m', b') ∧ c' = ⟨tr.next, m', b'⟩ := by
  rw [hg.visit_iff]
  refine ⟨fun hr => ?_, fun hact => ?_⟩
  · obtain ⟨tr', h', hact⟩ := hr
    have heq : some tr' = some tr :=
      (hg.transition_eq_some_iff.mpr h').symm.trans (hg.transition_eq_some_iff.mpr h)
    cases heq
    exact hact
  · exact ⟨tr, h, hact⟩

theorem mem_row_of_walk (hg : g.HasRows row)
    (h : g.walk frames offset ⟨s, m, b⟩ t = .ok c') : ∃ tr, (t.tag, tr) ∈ row s := by
  cases t with
  | leaf tag field value =>
    obtain ⟨tr, hmem, _⟩ := hg.visit_iff.mp h
    exact ⟨tr, hmem⟩
  | node tag field children =>
    obtain ⟨opened, inside, hvisit, _⟩ := walk_node_eq_ok_iff.mp h
    obtain ⟨tr, hmem, _⟩ := hg.visit_iff.mp hvisit
    exact ⟨tr, hmem⟩

/-- In a state without transitions nothing may come any more. -/
theorem ends_of_row_nil (hg : g.HasRows row) (hrow : row s = []) :
    g.Ends frames offset ⟨s, m, true⟩ ts m' ↔ ts = [] ∧ m' = m := by
  cases ts with
  | nil => simp [ends_nil]
  | cons t ts =>
    simp only [ends_cons, reduceCtorEq, false_and, iff_false]
    intro h
    obtain ⟨d, hd, _⟩ := h
    obtain ⟨tr, hmem⟩ := hg.mem_row_of_walk hd
    rw [hrow] at hmem
    cases hmem

theorem walk_leaf_of_mem (hg : g.HasRows row) (hmem : (tag, ⟨next, some act⟩) ∈ row s) :
    g.walk frames offset ⟨s, m, b⟩ (.leaf tag field value) = .ok c' ↔
      ∃ m' b', act ((Tree.leaf tag field value).element offset frames) m = .ok (m', b') ∧
        c' = ⟨next, m', b'⟩ :=
  hg.visit_of_mem (e := (Tree.leaf tag field value).element offset frames) hmem

/-- A node is gone through by its children. -/
theorem walk_children (hg : g.HasRows row) (hmem : (tag, tr) ∈ row s)
    (hact : ∀ e, tr.act e m = .ok (m₁, b₁)) :
    g.walk frames offset ⟨s, m, b⟩ (.node tag field children) = .ok c' ↔
      let h := (Tree.node tag field children).header offset
      ∃ s' m', g.walkAll (⟨tr.next, h.valueEnd⟩ :: frames) h.valueOffset ⟨tr.next, m₁, b₁⟩
          children = .ok ⟨s', m', true⟩ ∧
        c' = (g.close tr.next).elim ⟨s', m', true⟩ fun close =>
          ⟨close.next, m', close.endAllowed⟩ := by
  have hvisit (opened : Cursor σ M) :
      g.visit ⟨s, m, b⟩ ((Tree.node tag field children).element offset frames) = .ok opened ↔
        opened = ⟨tr.next, m₁, b₁⟩ := by
    rw [hg.visit_of_mem hmem]
    simp only [hact, Except.ok.injEq, Prod.mk.injEq]
    refine ⟨fun hr => ?_, fun hr => ?_⟩
    · obtain ⟨_, _, ⟨rfl, rfl⟩, hopened⟩ := hr
      exact hopened
    · exact ⟨m₁, b₁, ⟨rfl, rfl⟩, hr⟩
  rw [walk_node_eq_ok_iff]
  simp only [hvisit, leave_eq_ok_iff]
  refine ⟨fun hr => ?_, fun hr => ?_⟩
  · obtain ⟨_, ⟨s', m', b'⟩, rfl, hwalk, rfl, rfl⟩ := hr
    exact ⟨s', m', hwalk, rfl⟩
  · obtain ⟨s', m', hwalk, rfl⟩ := hr
    exact ⟨_, ⟨s', m', true⟩, rfl, hwalk, rfl, rfl⟩

/-- A close takes the state and the flag back from the children. -/
theorem walk_node_of_mem (hg : g.HasRows row) (hmem : (tag, tr) ∈ row s)
    (hact : ∀ e, tr.act e m = .ok (m₁, b₁)) (hclose : g.close tr.next = some close) :
    g.walk frames offset ⟨s, m, b⟩ (.node tag field children) = .ok c' ↔
      let h := (Tree.node tag field children).header offset
      ∃ m', g.Ends (⟨tr.next, h.valueEnd⟩ :: frames) h.valueOffset ⟨tr.next, m₁, b₁⟩ children m' ∧
        c' = ⟨close.next, m', close.endAllowed⟩ := by
  rw [hg.walk_children hmem hact, hclose]
  refine ⟨fun hr => ?_, fun hr => ?_⟩
  · obtain ⟨s', m', hwalk, rfl⟩ := hr
    exact ⟨m', ⟨s', hwalk⟩, rfl⟩
  · obtain ⟨m', ⟨s', hwalk⟩, rfl⟩ := hr
    exact ⟨s', m', hwalk, rfl⟩

/-! ### States with one transition -/

/-- If the only transition is for a primitive tag, only a leaf with this tag is visited. -/
theorem walk_leaf (hg : g.HasRows row) (hrow : row s = [(tag, ⟨next, some act⟩)])
    (htag : Tag.isConstructed tag = false) (ht : t.WellFormed) :
    g.walk frames offset ⟨s, m, b⟩ t = .ok c' ↔
      ∃ field value, t = .leaf tag field value ∧
        ∃ m' b', act ((Tree.leaf tag field value).element offset frames) m = .ok (m', b') ∧
          c' = ⟨next, m', b'⟩ := by
  have hmem : (tag, ⟨next, some act⟩) ∈ row s := by simp [hrow]
  refine ⟨fun h => ?_, fun h => ?_⟩
  · obtain ⟨tr, htr⟩ := hg.mem_row_of_walk h
    rw [hrow, List.mem_singleton, Prod.mk.injEq] at htr
    obtain ⟨field, value, rfl⟩ := Tree.leaf_of_tag ht htr.1 htag
    exact ⟨field, value, rfl, (hg.walk_leaf_of_mem hmem).mp h⟩
  · obtain ⟨field, value, rfl, hact⟩ := h
    exact (hg.walk_leaf_of_mem hmem).mpr hact

/-- If the only transition is for a constructed tag, only a node with this tag is visited, and
its children after it. -/
theorem walk_node (hg : g.HasRows row) (hrow : row s = [(tag, tr)])
    (htag : Tag.isConstructed tag = true) (ht : t.WellFormed)
    (hact : ∀ e, tr.act e m = .ok (m₁, b₁)) (hclose : g.close tr.next = some close) :
    g.walk frames offset ⟨s, m, b⟩ t = .ok c' ↔
      ∃ field children, t = .node tag field children ∧ Tree.AllWellFormed children ∧
        let h := (Tree.node tag field children).header offset
        ∃ m', g.Ends (⟨tr.next, h.valueEnd⟩ :: frames) h.valueOffset ⟨tr.next, m₁, b₁⟩
            children m' ∧
          c' = ⟨close.next, m', close.endAllowed⟩ := by
  have hmem : (tag, tr) ∈ row s := by simp [hrow]
  refine ⟨fun h => ?_, fun hr => ?_⟩
  · obtain ⟨tr', htr⟩ := hg.mem_row_of_walk h
    rw [hrow, List.mem_singleton, Prod.mk.injEq] at htr
    obtain ⟨field, children, rfl, hchildren⟩ := Tree.node_of_tag ht htr.1 htag
    exact ⟨field, children, rfl, hchildren, (hg.walk_node_of_mem hmem hact hclose).mp h⟩
  · obtain ⟨field, children, rfl, _, h⟩ := hr
    exact (hg.walk_node_of_mem hmem hact hclose).mpr h

/-! ### Elements that may be left out -/

/-- A row with one more tag in front does with any other what the shorter one does. -/
theorem walk_of_row_cons (hg : g.HasRows row) (hrow : row s = (tag, tr) :: row next)
    (hne : t.tag ≠ tag) :
    g.walk frames offset ⟨s, m, b⟩ t = .ok c' ↔ g.walk frames offset ⟨next, m, b⟩ t = .ok c' := by
  have htransition : g.transition s t.tag = g.transition next t.tag := by
    rw [hg.transition, hg.transition, hrow, List.lookup_cons, beq_false_of_ne hne]
  have hvisit (d : Cursor σ M) : g.visit ⟨s, m, b⟩ (t.element offset frames) = .ok d ↔
      g.visit ⟨next, m, b⟩ (t.element offset frames) = .ok d := by
    simp only [visit_eq_ok_iff, Tree.header_element, Tree.tag_header, htransition]
  cases t with
  | leaf tag field value => exact hvisit c'
  | node tag field children => simp only [walk_node_eq_ok_iff, hvisit]

theorem tag_ne_of_row_cons (hg : g.HasRows row) (hrow : row s = (tag, tr) :: row next)
    (h : g.walk frames offset ⟨next, m, b⟩ t = .ok c') : t.tag ≠ tag := by
  obtain ⟨tr', hmem⟩ := hg.mem_row_of_walk h
  have hnodup := hg.nodup s
  rw [hrow, List.map_cons, List.nodup_cons] at hnodup
  rintro rfl
  exact hnodup.1 (List.mem_map.mpr ⟨_, hmem, rfl⟩)

/-- In front of an element that may be left out there is the element, or what comes behind it. -/
theorem ends_optional (hg : g.HasRows row) (hrow : row s = (tag, ⟨next, some act⟩) :: row next)
    (htag : Tag.isConstructed tag = false) {α : Type} {R : α → Bytes → Prop} {default : α}
    (put : α → M) (hact : ∀ (e : Element σ) m' b', act e (put default) = .ok (m', b') ↔
      ∃ a, R a e.value ∧ m' = put a ∧ b' = b)
    {P : α → List Tree → Prop} (hnext : ∀ a offset ts, Tree.AllWellFormed ts →
      (g.Ends frames offset ⟨next, put a, b⟩ ts m' ↔ P a ts)) (hts : Tree.AllWellFormed ts) :
    g.Ends frames offset ⟨s, put default, b⟩ ts m' ↔
      ∃ a us vs, ts = us ++ vs ∧ AreOptional tag R default a us ∧ P a vs := by
  have hmem : (tag, ⟨next, some act⟩) ∈ row s := by simp [hrow]
  refine ⟨fun h => ?_, fun h => ?_⟩
  · cases ts with
    | nil =>
      have hend : g.Ends frames offset ⟨next, put default, b⟩ [] m' := ends_nil.mpr (ends_nil.mp h)
      exact ⟨default, [], [], rfl, .absent, (hnext _ _ _ hts).mp hend⟩
    | cons t ts =>
      obtain ⟨d, hd, hrest⟩ := ends_cons.mp h
      by_cases hne : t.tag = tag
      · obtain ⟨field, value, rfl⟩ := Tree.leaf_of_tag hts.1 hne htag
        obtain ⟨m₂, b₂, hr, rfl⟩ := (hg.walk_leaf_of_mem hmem).mp hd
        obtain ⟨a, ha, rfl, rfl⟩ := (hact _ _ _).mp hr
        exact ⟨a, [_], ts, rfl, .present field ha, (hnext _ _ _ hts.2).mp hrest⟩
      · have hend := ends_cons.mpr ⟨d, (hg.walk_of_row_cons hrow hne).mp hd, hrest⟩
        exact ⟨default, [], t :: ts, rfl, .absent, (hnext _ _ _ hts).mp hend⟩
  · obtain ⟨a, us, vs, rfl, hoptional, hp⟩ := h
    cases hoptional with
    | absent =>
      have hend := (hnext _ offset _ hts).mpr hp
      cases vs with
      | nil => exact ends_nil.mpr (ends_nil.mp hend)
      | cons t ts =>
        obtain ⟨d, hd, hrest⟩ := ends_cons.mp hend
        have hne := hg.tag_ne_of_row_cons hrow hd
        exact ends_cons.mpr ⟨d, (hg.walk_of_row_cons hrow hne).mpr hd, hrest⟩
    | present field ha =>
      refine ends_cons.mpr ⟨⟨next, put a, b⟩, (hg.walk_leaf_of_mem hmem).mpr ?_,
        (hnext _ _ _ hts.2).mpr hp⟩
      exact ⟨_, _, (hact _ _ _).mpr ⟨a, ha, rfl, rfl⟩, rfl⟩

/-! ### Whole messages -/

theorem mem_row_of_read (hg : g.HasRows row) (h : g.read offset t = .ok m) :
    ∃ tr, (t.tag, tr) ∈ row g.start := by
  obtain ⟨c, hwalk, -⟩ := read_eq_ok_iff.mp h
  exact hg.mem_row_of_walk hwalk

theorem read_leaf (hg : g.HasRows row) (hmem : (tag, ⟨next, some act⟩) ∈ row g.start) :
    g.read offset (.leaf tag field value) = .ok m ↔
      act ((Tree.leaf tag field value).element offset []) g.blank = .ok (m, true) := by
  rw [read_eq_ok_iff]
  refine ⟨fun h => ?_, fun h => ?_⟩
  · obtain ⟨c, hc, hend, rfl⟩ := h
    obtain ⟨m', b', hact, rfl⟩ := (hg.walk_leaf_of_mem hmem).mp hc
    obtain rfl : b' = true := hend
    exact hact
  · exact ⟨_, (hg.walk_leaf_of_mem hmem).mpr ⟨m, true, h, rfl⟩, rfl, rfl⟩

/-- Whether the outermost element has a close does not matter any more. -/
theorem read_node (hg : g.HasRows row) (hmem : (tag, tr) ∈ row g.start)
    (hact : ∀ e, tr.act e g.blank = .ok (m₁, b₁)) :
    g.read offset (.node tag field children) = .ok m ↔
      let h := (Tree.node tag field children).header offset
      g.Ends [⟨tr.next, h.valueEnd⟩] h.valueOffset ⟨tr.next, m₁, b₁⟩ children m := by
  rw [read_eq_ok_iff]
  refine ⟨fun h => ?_, fun h => ?_⟩
  · obtain ⟨c, hc, -, rfl⟩ := h
    obtain ⟨s', m', hinside, rfl⟩ := (hg.walk_children hmem hact).mp hc
    have hm : ((g.close tr.next).elim (⟨s', m', true⟩ : Cursor σ M) fun close =>
        ⟨close.next, m', close.endAllowed⟩).message = m' := by
      cases g.close tr.next <;> rfl
    rw [hm]
    exact ⟨s', hinside⟩
  · obtain ⟨s', hinside⟩ := h
    refine ⟨_, (hg.walk_children hmem hact).mpr ⟨s', m, hinside, rfl⟩, rfl, ?_⟩
    cases g.close tr.next <;> rfl

end HasRows

/-- What a grammar decodes is told by what it reads in well-formed trees. -/
theorem decode_iff_of_read {R : M → Tree → Prop}
    (h : ∀ {m t}, t.WellFormed → (g.read 0 t = .ok m ↔ R m t)) {bytes : Bytes} :
    g.decode none bytes = .ok m ↔ ∃ t : Tree, t.WellFormed ∧ t.bytes = bytes ∧ R m t := by
  refine ⟨fun hdecode => ?_, fun hr => ?_⟩
  · obtain ⟨t, ht, rfl, hread⟩ := tree_of_decode hdecode
    exact ⟨t, ht, rfl, (h ht).mp hread⟩
  · obtain ⟨t, ht, rfl, hm⟩ := hr
    rw [decode_bytes ht]
    exact (h ht).mpr hm

end Grammar

/-! ### The grammars that are here -/

theorem Message.hasRows : Message.grammar.HasRows Message.row :=
  ⟨fun _ _ => rfl, fun s => by cases s <;> decide⟩

theorem SortRequest.hasRows : SortRequest.grammar.HasRows SortRequest.row :=
  ⟨fun _ _ => rfl, fun s => by cases s <;> decide⟩

theorem SyncInfo.hasRows : SyncInfo.grammar.HasRows SyncInfo.row :=
  ⟨fun _ _ => rfl, fun s => by cases s <;> decide⟩

end LdapBer
