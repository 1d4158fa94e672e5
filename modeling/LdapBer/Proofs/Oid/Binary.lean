import Mathlib.Data.List.Induction
import LdapBer.Oid.Binary

/-! Identifiers in base 128.

The binary form of an identifier is a row of groups of bytes, one for each of its numbers. A group
ends at its first byte without the bit 0x80 (`IsGroup`), so a byte string is cut into groups in one
way (`groups_flatten`). Writing fills a buffer with the groups of the numbers, in as many bytes as
were computed before (`writeBytes_eq`). Reading is told by groups as well: a byte string is an
identifier if its last group is complete and no group stands for more than 64 bits, and it is
written as it came if no group starts with a digit that is zero and needless
(`ofBytes_inverts_toBytes`). -/
namespace LdapBer.Oid

/-! ### Groups -/

/-- The bytes of one number: all but the last are marked as continued. -/
inductive IsGroup : Bytes → Prop
  | last {b : UInt8} (h : b < 0x80) : IsGroup [b]
  | continued {b : UInt8} {g : Bytes} (h : ¬ b < 0x80) (hg : IsGroup g) : IsGroup (b :: g)

/-- Cuts a byte string behind each byte that is not continued. Only the last group may lack such a
byte. -/
def groups : Bytes → List Bytes
  | [] => []
  | b :: s =>
    if b < 0x80 then [b] :: groups s
    else
      match groups s with
      | [] => [[b]]
      | g :: gs => (b :: g) :: gs

/-- The number that digits in base 128 stand for. -/
def ofBase128 (s : Bytes) : Nat :=
  s.foldl (fun n b => n * 128 + b.toNat % 128) 0

theorem flatten_groups (s : Bytes) : (groups s).flatten = s := by
  induction s with
  | nil => rfl
  | cons b s ih =>
    rw [groups]
    split
    · rw [List.flatten_cons, ih, List.singleton_append]
    · split
      · next hnil =>
        rw [hnil] at ih
        rw [← ih]
        rfl
      · next g gs hcons =>
        rw [hcons, List.flatten_cons] at ih
        rw [List.flatten_cons, List.cons_append, ih]

/-- A byte string whose last byte is not continued consists of whole groups. -/
theorem isGroup_of_mem_groups {s : Bytes} (h : ∀ b ∈ s.getLast?, b < 0x80) :
    ∀ g ∈ groups s, IsGroup g := by
  induction s with
  | nil => exact nofun
  | cons b s ih =>
    have hrest : ∀ c ∈ s.getLast?, c < 0x80 := by
      intro c hc
      cases s with
      | nil => cases hc
      | cons d s => exact h c (by rwa [List.getLast?_cons_cons])
    have hgroups := ih hrest
    rw [groups]
    split
    · next hlast => exact List.forall_mem_cons.mpr ⟨.last hlast, hgroups⟩
    · next hcontinued =>
      split
      · next hnil =>
        have hs := flatten_groups s
        rw [hnil] at hs
        subst hs
        exact absurd (h b rfl) hcontinued
      · next g gs hcons =>
        rw [hcons] at hgroups
        obtain ⟨hg, hgs⟩ := List.forall_mem_cons.mp hgroups
        exact List.forall_mem_cons.mpr ⟨.continued hcontinued hg, hgs⟩

theorem IsGroup.groups_append {g : Bytes} (hg : IsGroup g) (s : Bytes) :
    groups (g ++ s) = g :: groups s := by
  induction hg with
  | last h => rw [List.singleton_append, groups, if_pos h]
  | continued h _ ih => rw [List.cons_append, groups, if_neg h, ih]

/-- Groups in a row are found again. -/
theorem groups_flatten {gs : List Bytes} (h : ∀ g ∈ gs, IsGroup g) : groups gs.flatten = gs := by
  induction gs with
  | nil => rfl
  | cons g gs ih =>
    obtain ⟨hg, hgs⟩ := List.forall_mem_cons.mp h
    rw [List.flatten_cons, hg.groups_append, ih hgs]

theorem isGroup_concat {lead : Bytes} {b : UInt8} (hlead : ∀ c ∈ lead, ¬ c < 0x80) (hb : b < 0x80) :
    IsGroup (lead ++ [b]) := by
  induction lead with
  | nil => exact .last hb
  | cons c lead ih =>
    obtain ⟨hc, hlead⟩ := List.forall_mem_cons.mp hlead
    exact .continued hc (ih hlead)

theorem IsGroup.eq_concat {g : Bytes} (hg : IsGroup g) :
    ∃ lead b, g = lead ++ [b] ∧ (∀ c ∈ lead, ¬ c < 0x80) ∧ b < 0x80 := by
  induction hg with
  | @last b h => exact ⟨[], b, rfl, nofun, h⟩
  | @continued c _ h _ ih =>
    obtain ⟨lead, b, rfl, hlead, hb⟩ := ih
    exact ⟨c :: lead, b, rfl, List.forall_mem_cons.mpr ⟨h, hlead⟩, hb⟩

/-! ### Reading -/

/-- A group is read if its number has 64 bits. `acc` is the number before the group, which is not
bounded here: with more than 57 bits it is refused as soon as there is another digit, and with that
digit it would have more than 64. -/
theorem IsGroup.readNumbers_append {g : Bytes} (hg : IsGroup g) {acc i : Nat} {midway : Bool}
    {s : Bytes} {l : List Nat} :
    readNumbers acc midway i (g ++ s) = .ok l ↔
      let n := g.foldl (fun n b => n * 128 + b.toNat % 128) acc
      n < 0x10000000000000000 ∧
        ∃ rest, readNumbers 0 false (i + g.length) s = .ok rest ∧ l = n :: rest := by
  induction hg generalizing acc midway i with
  | @last b h =>
    have hlast : ¬ 128 ≤ b.toNat := Nat.not_le_of_lt h
    rw [List.singleton_append, readNumbers]
    simp only [List.foldl_cons, List.foldl_nil, List.length_singleton, hlast, if_false]
    split
    · simp only [reduceCtorEq, false_iff, not_and]
      intro hlt
      omega
    · have hlt : acc * 128 + b.toNat % 128 < 0x10000000000000000 := by omega
      cases readNumbers 0 false (i + 1) s with
      | error e => simp [Functor.map, Except.map]
      | ok rest => simp [Functor.map, Except.map, hlt, eq_comm]
  | @continued b g h _ ih =>
    have hcontinued : 128 ≤ b.toNat := Nat.le_of_not_lt h
    rw [List.cons_append, readNumbers]
    simp only [List.foldl_cons, List.length_cons, hcontinued, if_true]
    split
    · have hle := le_foldl_digits (by decide : 0 < 128) (·.toNat % 128) g
        (acc * 128 + b.toNat % 128)
      simp only [reduceCtorEq, false_iff, not_and]
      intro hlt
      omega
    · have hlength : i + 1 + g.length = i + (g.length + 1) := by omega
      rw [ih, hlength]

theorem readNumbers_flatten {gs : List Bytes} (h : ∀ g ∈ gs, IsGroup g) {i : Nat} {l : List Nat} :
    readNumbers 0 false i gs.flatten = .ok l ↔
      (∀ g ∈ gs, ofBase128 g < 0x10000000000000000) ∧ l = gs.map ofBase128 := by
  induction gs generalizing i l with
  | nil => simp [readNumbers, eq_comm]
  | cons g gs ih =>
    obtain ⟨hg, hgs⟩ := List.forall_mem_cons.mp h
    rw [List.flatten_cons, hg.readNumbers_append, List.forall_mem_cons, List.map_cons]
    simp only [ih hgs]
    refine ⟨fun h => ?_, fun h => ?_⟩
    · obtain ⟨hn, _, ⟨hns, rfl⟩, rfl⟩ := h
      exact ⟨⟨hn, hns⟩, rfl⟩
    · obtain ⟨⟨hn, hns⟩, rfl⟩ := h
      exact ⟨hn, _, ⟨hns, rfl⟩, rfl⟩

/-- What is read does not stop in the middle of a number. -/
theorem getLast_of_readNumbers {s : Bytes} {acc i : Nat} {midway : Bool} {l : List Nat}
    (h : readNumbers acc midway i s = .ok l) : ∀ b ∈ s.getLast?, b < 0x80 := by
  induction s generalizing acc midway i l with
  | nil => exact nofun
  | cons b s ih =>
    rw [readNumbers] at h
    split at h
    · cases h
    · dsimp only at h
      have hrest : ∃ acc midway l, readNumbers acc midway (i + 1) s = .ok l ∧
          (s = [] → b < 0x80) := by
        split at h
        · refine ⟨_, _, _, h, ?_⟩
          rintro rfl
          cases h
        · next hlast =>
          cases hr : readNumbers 0 false (i + 1) s with
          | error e =>
            rw [hr] at h
            cases h
          | ok rest => exact ⟨_, _, _, hr, fun _ => Nat.lt_of_not_le hlast⟩
      obtain ⟨_, _, _, hr, hnil⟩ := hrest
      intro c hc
      cases s with
      | nil =>
        obtain rfl := Option.some.inj hc
        exact hnil rfl
      | cons d s => exact ih hr c (by rwa [List.getLast?_cons_cons] at hc)

theorem readNumbers_eq_ok_iff {s : Bytes} {i : Nat} {l : List Nat} :
    readNumbers 0 false i s = .ok l ↔
      (∀ b ∈ s.getLast?, b < 0x80) ∧ (∀ g ∈ groups s, ofBase128 g < 0x10000000000000000) ∧
        l = (groups s).map ofBase128 := by
  refine ⟨fun h => ?_, fun ⟨hlast, h⟩ => ?_⟩
  · have hlast := getLast_of_readNumbers h
    rw [← flatten_groups s] at h
    exact ⟨hlast, (readNumbers_flatten (isGroup_of_mem_groups hlast)).mp h⟩
  · have hs := (readNumbers_flatten (i := i) (isGroup_of_mem_groups hlast)).mpr h
    rwa [flatten_groups] at hs

/-! ### Writing -/

/-- The digits of a number above its last one, each marked as continued. -/
def base128Lead (n : Nat) : Bytes :=
  if n = 0 then [] else base128Lead (n / 128) ++ [(128 + n % 128).toUInt8]

/-- The group of a number. -/
def base128 (n : Nat) : Bytes :=
  base128Lead (n / 128) ++ [(n % 128).toUInt8]

theorem base128Lead_zero : base128Lead 0 = [] := by
  rw [base128Lead, if_pos rfl]

theorem base128Lead_of_pos {n : Nat} (h : n ≠ 0) :
    base128Lead n = base128Lead (n / 128) ++ [(128 + n % 128).toUInt8] := by
  rw [base128Lead, if_neg h]

theorem toNat_continued (n : Nat) : (128 + n % 128).toUInt8.toNat = 128 + n % 128 := by
  rw [UInt8.toNat_ofNat']
  omega

theorem toNat_digit (n : Nat) : (n % 128).toUInt8.toNat = n % 128 := by
  rw [UInt8.toNat_ofNat']
  omega

theorem ofBase128_concat (s : Bytes) (b : UInt8) :
    ofBase128 (s ++ [b]) = ofBase128 s * 128 + b.toNat % 128 := by
  simp [ofBase128]

theorem head?_concat_ne {lead : Bytes} {b c : UInt8} (hlead : lead.head? ≠ some c)
    (hb : lead = [] → b ≠ c) : (lead ++ [b]).head? ≠ some c := by
  cases lead with
  | nil => exact fun h => hb rfl (Option.some.inj h)
  | cons d lead => exact hlead

/-- What is written above the last digit: continued bytes that stand for the number, the first of
them with a digit that is not zero. -/
theorem base128Lead_spec (n : Nat) :
    (∀ c ∈ base128Lead n, ¬ c < 0x80) ∧ ofBase128 (base128Lead n) = n ∧
      (base128Lead n).head? ≠ some 0x80 := by
  induction n using Nat.strongRecOn with
  | ind n ih =>
    by_cases hn : n = 0
    · subst hn
      rw [base128Lead_zero]
      exact ⟨nofun, rfl, nofun⟩
    · obtain ⟨hcontinued, hvalue, hhead⟩ := ih (n / 128) (by omega)
      have hdigit := toNat_continued n
      rw [base128Lead_of_pos hn]
      refine ⟨?_, ?_, ?_⟩
      · rw [List.forall_mem_append]
        refine ⟨hcontinued, List.forall_mem_singleton.mpr ?_⟩
        rw [UInt8.lt_iff_toNat_lt, hdigit]
        exact Nat.not_lt.mpr (Nat.le_add_right 128 _)
      · rw [ofBase128_concat, hvalue, hdigit]
        omega
      · refine head?_concat_ne hhead fun hnil heq => ?_
        -- the only digit is the number itself
        rw [hnil] at hvalue
        have hvalue : 0 = n / 128 := hvalue
        have hdigit := congrArg UInt8.toNat heq
        rw [toNat_continued] at hdigit
        have hdigit : 128 + n % 128 = 128 := hdigit
        omega

theorem isGroup_base128 (n : Nat) : IsGroup (base128 n) := by
  refine isGroup_concat (base128Lead_spec (n / 128)).1 ?_
  rw [UInt8.lt_iff_toNat_lt, toNat_digit]
  exact Nat.mod_lt n (by decide)

theorem ofBase128_base128 (n : Nat) : ofBase128 (base128 n) = n := by
  rw [base128, ofBase128_concat, (base128Lead_spec (n / 128)).2.1, toNat_digit]
  omega

/-- Continued bytes are those of their number, if the first digit is not zero. -/
theorem base128Lead_ofBase128 {lead : Bytes} (hlead : ∀ c ∈ lead, ¬ c < 0x80)
    (hhead : lead.head? ≠ some 0x80) : base128Lead (ofBase128 lead) = lead := by
  induction lead using List.reverseRecOn with
  | nil => exact base128Lead_zero
  | append_singleton lead b ih =>
    obtain ⟨hlead, hb⟩ := List.forall_mem_append.mp hlead
    have hb : 128 ≤ b.toNat := Nat.le_of_not_lt (hb b List.mem_cons_self)
    have hbyte := b.toNat_lt
    have hpos : ofBase128 lead * 128 + b.toNat % 128 ≠ 0 := by
      cases lead with
      | nil =>
        have hne : b ≠ 0x80 := fun h => hhead (by rw [h]; rfl)
        have hne : b.toNat ≠ 128 := fun h => hne (UInt8.toNat_inj.mp h)
        omega
      | cons c lead =>
        have hrest := ih hlead hhead
        intro hzero
        have hvalue : ofBase128 (c :: lead) = 0 := by omega
        rw [hvalue, base128Lead_zero] at hrest
        cases hrest
    have hfront : base128Lead (ofBase128 lead) = lead := by
      refine ih hlead fun h => hhead ?_
      rw [List.head?_append, h, Option.some_or]
    have hdiv : (ofBase128 lead * 128 + b.toNat % 128) / 128 = ofBase128 lead := by omega
    have hdigit : (128 + (ofBase128 lead * 128 + b.toNat % 128) % 128).toUInt8 = b := by
      apply UInt8.toNat_inj.mp
      rw [toNat_continued]
      omega
    rw [ofBase128_concat, base128Lead_of_pos hpos, hdiv, hfront, hdigit]

theorem head?_base128 (n : Nat) : (base128 n).head? ≠ some 0x80 := by
  refine head?_concat_ne (base128Lead_spec (n / 128)).2.2 fun _ heq => ?_
  have hdigit := congrArg UInt8.toNat heq
  rw [toNat_digit] at hdigit
  have hdigit : n % 128 = 128 := hdigit
  omega

/-- A group is what is written for its number, if it does not start with a zero that is needless. -/
theorem IsGroup.base128_ofBase128_iff {g : Bytes} (hg : IsGroup g) :
    base128 (ofBase128 g) = g ↔ g.head? ≠ some 0x80 := by
  refine ⟨fun h => ?_, fun hhead => ?_⟩
  · rw [← h]
    exact head?_base128 _
  · obtain ⟨lead, b, rfl, hlead, hb⟩ := hg.eq_concat
    have hb : b.toNat < 128 := hb
    have hfront : base128Lead (ofBase128 lead) = lead := by
      refine base128Lead_ofBase128 hlead fun h => hhead ?_
      rw [List.head?_append, h, Option.some_or]
    have hdiv : (ofBase128 lead * 128 + b.toNat % 128) / 128 = ofBase128 lead := by omega
    have hdigit : ((ofBase128 lead * 128 + b.toNat % 128) % 128).toUInt8 = b := by
      apply UInt8.toNat_inj.mp
      rw [toNat_digit]
      omega
    rw [ofBase128_concat, base128, hdiv, hfront, hdigit]

/-! ### Filling a buffer -/

theorem digitCount_zero : digitCount 0 = 0 := by
  rw [digitCount, if_pos rfl]

theorem digitCount_of_pos {n : Nat} (h : n ≠ 0) : digitCount n = digitCount (n / 128) + 1 := by
  rw [digitCount, if_neg h]

theorem length_base128Lead (n : Nat) : (base128Lead n).length = digitCount n := by
  induction n using Nat.strongRecOn with
  | ind n ih =>
    by_cases hn : n = 0
    · rw [hn, base128Lead_zero, digitCount_zero, List.length_nil]
    · rw [base128Lead_of_pos hn, digitCount_of_pos hn, List.length_append, ih (n / 128) (by omega),
        List.length_singleton]

/-- The bounds up to four bytes are those at which there is one digit more. -/
theorem base128Length_eq (n : Nat) : base128Length n = digitCount (n / 128) + 1 := by
  have hstep (k : Nat) (hk : n / k ≠ 0) :
      digitCount (n / k) = digitCount (n / (k * 128)) + 1 := by
    rw [digitCount_of_pos hk, Nat.div_div_eq_div_mul]
  unfold base128Length
  split
  · next h => rw [Nat.div_eq_of_lt h, digitCount_zero]
  split
  · next h => rw [hstep 0x80 (by omega), Nat.div_eq_of_lt h, digitCount_zero]
  split
  · next h =>
    rw [hstep 0x80 (by omega), hstep 0x4000 (by omega), Nat.div_eq_of_lt h, digitCount_zero]
  split
  · next h =>
    rw [hstep 0x80 (by omega), hstep 0x4000 (by omega), hstep 0x200000 (by omega),
      Nat.div_eq_of_lt h, digitCount_zero]
  · rw [hstep 0x80 (by omega), hstep 0x4000 (by omega), hstep 0x200000 (by omega),
      hstep 0x10000000 (by omega)]
    exact Nat.add_comm 5 _

theorem length_base128 (n : Nat) : (base128 n).length = base128Length n := by
  rw [base128, List.length_append, length_base128Lead, List.length_singleton, base128Length_eq]

theorem drop_set_self {dest : Bytes} {i : Nat} (h : i < dest.length) (b : UInt8) :
    (dest.set i b).drop i = b :: dest.drop (i + 1) := by
  rw [List.drop_eq_getElem_cons (by rwa [List.length_set]), List.getElem_set_self]
  exact congrArg (b :: ·) (List.drop_set_of_lt (Nat.lt_succ_self i))

/-- The digits above the last one, of which there are `i`. -/
theorem putDigits_lead {last i n : Nat} {dest : Bytes} (hlast : i ≤ last)
    (hcount : digitCount n = i) (hdest : i ≤ dest.length) :
    putDigits last i n dest = base128Lead n ++ dest.drop i := by
  induction i generalizing n dest with
  | zero =>
    have hnil : base128Lead n = [] :=
      List.length_eq_zero_iff.mp (by rw [length_base128Lead, hcount])
    rw [putDigits, hnil, List.drop_zero, List.nil_append]
  | succ i ih =>
    have hn : n ≠ 0 := by
      rintro rfl
      rw [digitCount_zero] at hcount
      cases hcount
    have hcount : digitCount (n / 128) = i := by
      rw [digitCount_of_pos hn] at hcount
      exact Nat.succ.inj hcount
    have hcontinued : i ≠ last := Nat.ne_of_lt hlast
    rw [putDigits, if_neg hcontinued, ih (Nat.le_of_lt hlast) hcount
      (by rw [List.length_set]; exact Nat.le_of_lt hdest), drop_set_self hdest,
      base128Lead_of_pos hn, List.append_assoc, List.singleton_append]

theorem putDigits_eq {n : Nat} {dest : Bytes} (hdest : base128Length n ≤ dest.length) :
    putDigits (base128Length n - 1) (base128Length n) n dest =
      base128 n ++ dest.drop (base128Length n) := by
  rw [base128Length_eq] at hdest ⊢
  rw [Nat.add_sub_cancel, putDigits, if_pos rfl, putDigits_lead (Nat.le_refl _) rfl
    (by rw [List.length_set]; exact Nat.le_of_lt hdest), drop_set_self hdest, base128,
    List.append_assoc, List.singleton_append]

theorem writeNumbers_eq {numbers : List Nat} {dest : Bytes}
    (h : total (numbers.map base128Length) ≤ dest.length) :
    writeNumbers numbers dest =
      (total (numbers.map base128Length),
        numbers.flatMap base128 ++ dest.drop (total (numbers.map base128Length))) := by
  induction numbers generalizing dest with
  | nil => rfl
  | cons n numbers ih =>
    rw [List.map_cons, total_cons] at h ⊢
    have hlength := length_base128 n
    have hrest : total (numbers.map base128Length) ≤ (dest.drop (base128Length n)).length := by
      rw [List.length_drop]
      omega
    have htake : (base128 n ++ dest.drop (base128Length n)).take (base128Length n) = base128 n :=
      List.take_left' hlength
    have hdrop : (base128 n ++ dest.drop (base128Length n)).drop (base128Length n) =
        dest.drop (base128Length n) := List.drop_left' hlength
    simp only [writeNumbers, putDigits_eq (Nat.le_trans (Nat.le_add_right _ _) h), hdrop, htake,
      ih hrest, List.drop_drop, List.flatMap_cons, List.append_assoc]

/-! ### Identifiers -/

/-- The number for the first two arcs does not overflow. -/
theorem arcs_eq (o : Oid) :
    ∃ first second rest, o.arcs = first :: second :: rest ∧
      first * 40 + second < 0x10000000000000000 ∧
      o.subidentifiers = (first * 40 + second) :: rest ∧ Admissible (first :: second :: rest) := by
  obtain ⟨arcs, h⟩ := o
  match arcs, h with
  | first :: second :: rest, h =>
    have hlt : first * 40 + second < 0x10000000000000000 := by
      obtain ⟨hfirst, -, hsecond, -⟩ := h
      omega
    exact ⟨first, second, rest, rfl, hlt, congrArg (· :: rest) (Nat.mod_eq_of_lt hlt), h⟩

theorem subidentifiers_lt (o : Oid) : ∀ n ∈ o.subidentifiers, n < 0x10000000000000000 := by
  obtain ⟨first, second, rest, -, hlt, hnumbers, -, -, -, hrest⟩ := o.arcs_eq
  rw [hnumbers]
  exact List.forall_mem_cons.mpr ⟨hlt, hrest⟩

/-- The first number tells the first two arcs apart. -/
theorem arcsOf_subidentifiers {first second : Nat} {rest : List Nat}
    (h : Admissible (first :: second :: rest)) :
    arcsOf (first * 40 + second) rest = first :: second :: rest := by
  obtain ⟨hfirst, hsecond, -⟩ := h
  unfold arcsOf
  obtain rfl | rfl | rfl : first = 0 ∨ first = 1 ∨ first = 2 := by omega
  all_goals grind

theorem subidentifiers_arcsOf (first : Nat) (rest : List Nat)
    (h : Admissible (arcsOf first rest)) :
    subidentifiers ⟨arcsOf first rest, h⟩ = first :: rest := by
  obtain ⟨a, b, rest', harcs, -, hnumbers, -⟩ := arcs_eq ⟨arcsOf first rest, h⟩
  have harcs : arcsOf first rest = a :: b :: rest' := harcs
  rw [hnumbers]
  unfold arcsOf at harcs
  grind

/-- An identifier is read if its numbers are. -/
theorem ofBytes_eq_ok_iff {s : Bytes} {o : Oid} :
    ofBytes s = .ok o ↔ readNumbers 0 false 0 s = .ok o.subidentifiers := by
  obtain ⟨a, b, rest, harcs, -, hnumbers, hadmissible⟩ := o.arcs_eq
  unfold ofBytes
  split
  · next e he => simp [he]
  · next he => simp [he, hnumbers]
  · next first rest' he =>
    refine ⟨fun h => ?_, fun h => ?_⟩
    · obtain rfl := Except.ok.inj h
      rw [subidentifiers_arcsOf, he]
    · rw [he, hnumbers] at h
      obtain ⟨rfl, rfl⟩ := List.cons.inj (Except.ok.inj h)
      refine congrArg Except.ok ?_
      obtain ⟨arcs, h⟩ := o
      have harcs : arcs = a :: b :: rest' := harcs
      subst harcs
      congr 1
      exact arcsOf_subidentifiers hadmissible

theorem toBytes_eq (o : Oid) : o.toBytes = o.subidentifiers.flatMap base128 := by
  have hroom : o.encodedLength ≤ (List.replicate o.encodedLength (0 : UInt8)).length :=
    Nat.le_of_eq List.length_replicate.symm
  rw [toBytes, writeBytes, writeNumbers_eq hroom, ← encodedLength, List.drop_replicate,
    Nat.sub_self, List.replicate_zero, List.append_nil]

/-- What is behind an identifier in the buffer stays as it is. -/
theorem writeBytes_eq {o : Oid} {dest : Bytes} (h : o.encodedLength ≤ dest.length) :
    o.writeBytes dest = (o.encodedLength, o.toBytes ++ dest.drop o.encodedLength) := by
  rw [writeBytes, writeNumbers_eq h, toBytes_eq, encodedLength]

theorem length_toBytes (o : Oid) : o.toBytes.length = o.encodedLength := by
  rw [toBytes_eq, encodedLength]
  induction o.subidentifiers with
  | nil => rfl
  | cons n numbers ih =>
    rw [List.flatMap_cons, List.length_append, length_base128, List.map_cons, total_cons, ih]

theorem ofBytes_toBytes (o : Oid) : ofBytes o.toBytes = .ok o := by
  have hgroups : ∀ g ∈ o.subidentifiers.map base128, IsGroup g :=
    List.forall_mem_map.mpr fun n _ => isGroup_base128 n
  have hvalues : (o.subidentifiers.map base128).map ofBase128 = o.subidentifiers := by
    simp only [List.map_map, Function.comp_def, ofBase128_base128, List.map_id_fun', id]
  rw [ofBytes_eq_ok_iff, toBytes_eq, List.flatMap_def, readNumbers_flatten hgroups, hvalues]
  refine ⟨List.forall_mem_map.mpr fun n hn => ?_, rfl⟩
  rw [ofBase128_base128]
  exact o.subidentifiers_lt n hn

/-- Numbers of 64 bits, of which there is one at least, are those of an identifier. -/
theorem exists_subidentifiers {numbers : List Nat} (hne : numbers ≠ [])
    (h : ∀ n ∈ numbers, n < 0x10000000000000000) : ∃ o : Oid, o.subidentifiers = numbers := by
  obtain ⟨first, rest, rfl⟩ := List.exists_cons_of_ne_nil hne
  exact ⟨⟨arcsOf first rest, admissible_arcsOf h⟩, subidentifiers_arcsOf first rest _⟩

theorem exists_ofBytes_iff {s : Bytes} :
    (∃ o, ofBytes s = .ok o) ↔
      s ≠ [] ∧ (∀ b ∈ s.getLast?, b < 0x80) ∧
        ∀ g ∈ groups s, ofBase128 g < 0x10000000000000000 := by
  simp only [ofBytes_eq_ok_iff, readNumbers_eq_ok_iff]
  refine ⟨fun h => ?_, fun h => ?_⟩
  · obtain ⟨o, hlast, hvalues, hnumbers⟩ := h
    refine ⟨?_, hlast, hvalues⟩
    rintro rfl
    obtain ⟨_, _, _, -, -, hsome, -⟩ := o.arcs_eq
    rw [hnumbers] at hsome
    cases hsome
  · obtain ⟨hne, hlast, hvalues⟩ := h
    have hsome : (groups s).map ofBase128 ≠ [] := by
      intro hnil
      rw [List.map_eq_nil_iff] at hnil
      have hs := flatten_groups s
      rw [hnil] at hs
      exact hne hs.symm
    obtain ⟨o, ho⟩ := exists_subidentifiers hsome (List.forall_mem_map.mpr hvalues)
    exact ⟨o, hlast, hvalues, ho⟩

theorem toBytes_eq_iff {s : Bytes} {o : Oid} (h : ofBytes s = .ok o) :
    o.toBytes = s ↔ ∀ g ∈ groups s, g.head? ≠ some 0x80 := by
  obtain ⟨hlast, -, hnumbers⟩ := readNumbers_eq_ok_iff.mp (ofBytes_eq_ok_iff.mp h)
  have hgroups := isGroup_of_mem_groups hlast
  have hbytes : o.toBytes = ((groups s).map fun g => base128 (ofBase128 g)).flatten := by
    rw [toBytes_eq, hnumbers, List.flatMap_map, List.flatMap_def]
  have hwritten : ∀ g ∈ (groups s).map fun g => base128 (ofBase128 g), IsGroup g :=
    List.forall_mem_map.mpr fun g _ => isGroup_base128 _
  rw [hbytes]
  refine ⟨fun heq g hg => ?_, fun hhead => ?_⟩
  · -- the groups of what is written are those that were read, one by one
    have hsame := congrArg groups heq
    rw [groups_flatten hwritten] at hsame
    have hsame := List.map_inj_left.mp (hsame.trans (List.map_id _).symm)
    exact (hgroups g hg).base128_ofBase128_iff.mp (hsame g hg)
  · have hsame : (groups s).map (fun g => base128 (ofBase128 g)) = (groups s).map id :=
      List.map_inj_left.mpr fun g hg => (hgroups g hg).base128_ofBase128_iff.mpr (hhead g hg)
    rw [hsame, List.map_id, flatten_groups]

/-- **Reading inverts writing, and is inverted by it but for needless zeros.** The joint number of
the first two arcs has 64 bits. An identifier is written in as many bytes as are said, which is also
what writing to a buffer returns that has room for them, and is read back from them. A byte string
is an identifier exactly if there are bytes, the last of them ends a group and every group stands
for a number of 64 bits. It is then written again as it came exactly if no group starts with a zero
that is continued. -/
theorem ofBytes_inverts_toBytes :
    (∀ o : Oid,
      (∃ first second rest, o.arcs = first :: second :: rest ∧
        first * 40 + second < 0x10000000000000000) ∧
      o.toBytes.length = o.encodedLength ∧
      (∀ dest : Bytes, o.encodedLength ≤ dest.length →
        o.writeBytes dest = (o.encodedLength, o.toBytes ++ dest.drop o.encodedLength)) ∧
      ofBytes o.toBytes = .ok o) ∧
    ∀ s : Bytes,
      ((∃ o, ofBytes s = .ok o) ↔
        s ≠ [] ∧ (∀ b ∈ s.getLast?, b < 0x80) ∧
          ∀ g ∈ groups s, ofBase128 g < 0x10000000000000000) ∧
      ∀ o, ofBytes s = .ok o → (o.toBytes = s ↔ ∀ g ∈ groups s, g.head? ≠ some 0x80) := by
  refine ⟨fun o => ⟨?_, o.length_toBytes, fun _ => writeBytes_eq, o.ofBytes_toBytes⟩, fun s => ?_⟩
  · obtain ⟨first, second, rest, harcs, hlt, -⟩ := o.arcs_eq
    exact ⟨first, second, rest, harcs, hlt⟩
  · exact ⟨exists_ofBytes_iff, fun o h => toBytes_eq_iff h⟩

/-- An identifier with an arc of two digits, and one that is padded, with a buffer that has room for
two bytes more. -/
theorem ofBytes_inverts_toBytes_padded :
    let s : Bytes := [0x2A, 0x81, 0x00, 0x80, 0x05]
    let o : Oid := ⟨[1, 2, 128, 5], by decide⟩
    let dest : Bytes := [0x01, 0x02, 0x03, 0x04, 0x05, 0x06]
    ofBytes s = .ok o ∧ o.encodedLength ≤ dest.length ∧
      o.writeBytes dest = (4, [0x2A, 0x81, 0x00, 0x05, 0x05, 0x06]) ∧ ofBytes o.toBytes = .ok o ∧
      (o.toBytes = s ↔ ∀ g ∈ groups s, g.head? ≠ some 0x80) := by
  intro s o dest
  have h : ofBytes s = .ok o := by decide
  have hroom : o.encodedLength ≤ dest.length := by decide
  obtain ⟨hwritten, hread⟩ := ofBytes_inverts_toBytes
  obtain ⟨-, -, hfilled, hback⟩ := hwritten o
  exact ⟨h, hroom, hfilled dest hroom, hback, (hread s).2 o h⟩

end LdapBer.Oid
