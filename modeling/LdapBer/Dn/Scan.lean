import LdapBer.Dn
import LdapBer.Failure
import LdapBer.Oid.Dotted

/-! Reading the names that need no unescaping.

A name is read from left to right: spaces, a type, spaces, `=`, spaces, a value up to the next
separator, spaces. A type is a word or a dotted identifier. Escapes, quoted and hexadecimal
values, several assertions in a relative name and types such as `oid.1.2.3` are left to a
reader of the full syntax: `Dn.scan` answers that they are not simple.

The reader moves a `Cursor` along the text and cuts out what lies between two places. `reads_ava`
says that the raw text of a relative name is what the cursor has passed. -/
namespace LdapBer.Dn

/-- Why the reading stops early. -/
inductive Stop where
  | tooComplex
  | name (e : DnError)
  | identifier (e : OidError)
deriving DecidableEq, Repr

def isSpace (c : UInt8) : Bool :=
  c == 32

def isSeparator (c : UInt8) : Bool :=
  c == 44 || c == 59

/-- A backslash, `+`, `#` or a quote: the value is not plain text. -/
def isSpecial (c : UInt8) : Bool :=
  c == 92 || c == 43 || c == 35 || c == 34

def isWordPart (c : UInt8) : Bool :=
  isAlpha c || isDigit c || c == 45 || c == 95

/-- A type ends at the text's end, at a space or at `=`. -/
def isTypeEnd (c : UInt8) : Bool :=
  c == 32 || c == 61

/-! ### Places in a text -/

/-- A place in a text: how many bytes are before it, and the text behind it. -/
structure Cursor where
  pos : Nat
  rest : Bytes
deriving DecidableEq, Repr

namespace Cursor

def advance (c : Cursor) (n : Nat) : Cursor :=
  ⟨c.pos + n, c.rest.drop n⟩

/-- The text from one place to a later one. -/
def upTo (c d : Cursor) : Bytes :=
  c.rest.take (d.pos - c.pos)

def skipSpaces (c : Cursor) : Cursor :=
  c.advance (c.rest.takeWhile isSpace).length

/-- Between two places stands the text `s`. -/
structure Reads (c : Cursor) (s : Bytes) (d : Cursor) : Prop where
  rest : c.rest = s ++ d.rest
  pos : d.pos = c.pos + s.length

theorem rest_advance {c : Cursor} {s t : Bytes} (h : c.rest = s ++ t) :
    (c.advance s.length).rest = t := by
  rw [advance, h, List.drop_left]

theorem reads_advance {c : Cursor} {s t : Bytes} (h : c.rest = s ++ t) :
    c.Reads s (c.advance s.length) :=
  ⟨by rw [rest_advance h, h], rfl⟩

theorem Reads.nil (c : Cursor) : c.Reads [] c :=
  ⟨rfl, rfl⟩

theorem Reads.append {c d e : Cursor} {s t : Bytes} (hs : c.Reads s d) (ht : d.Reads t e) :
    c.Reads (s ++ t) e :=
  ⟨by rw [hs.rest, ht.rest, List.append_assoc],
    by rw [ht.pos, hs.pos, List.length_append, Nat.add_assoc]⟩

theorem Reads.upTo_eq {c d : Cursor} {s : Bytes} (h : c.Reads s d) : c.upTo d = s := by
  rw [upTo, h.pos, Nat.add_sub_cancel_left, h.rest, List.take_left]

theorem reads_skipSpaces (c : Cursor) : c.Reads (c.rest.takeWhile isSpace) c.skipSpaces :=
  reads_advance List.takeWhile_append_dropWhile.symm

end Cursor

/-! ### The parts of an assertion -/

/-- The word at the front. -/
def scanWord (c : Cursor) : Except Stop (Bytes × Cursor) :=
  let word := c.rest.takeWhile isWordPart
  let after := c.advance word.length
  match after.rest with
  | [] => .ok (word, after)
  | b :: _ =>
    if isTypeEnd b then .ok (word, after)
    else if b = 46 then .error .tooComplex
    else .error (.name (.typeCharacter b after.pos))

/-- What belongs to a group of digits behind its first one. A group that starts with zero is just
that. -/
def groupTail (b : UInt8) (s : Bytes) : Bytes :=
  if b = 48 then [] else s.takeWhile isDigit

/-- Passes the groups of digits at the front, up to a space, `=` or the end, and counts the dots
between them. -/
def scanGroups (dots : Nat) : Cursor → Except Stop (Nat × Cursor)
  | ⟨pos, []⟩ => .error (.name (.unexpectedEnd pos))
  | ⟨pos, b :: s⟩ =>
    if isDigit b then
      let behind : Cursor := ⟨pos + 1, s⟩
      let after := behind.advance (groupTail b s).length
      match after.rest with
      | [] => .ok (dots, after)
      | d :: _ =>
        if d = 46 then scanGroups (dots + 1) (after.advance 1)
        else if isTypeEnd d then .ok (dots, after)
        else if b = 48 then .error (.name (.afterLeadingZero d after.pos))
        else .error (.name (.oidCharacter d after.pos))
    else .error (.name (.oidCharacter b pos))
termination_by c => c.rest.length
decreasing_by
  simp only [Cursor.advance, List.drop_drop, List.length_drop, List.length_cons]
  omega

/-- The dotted identifier at the front. -/
def scanOid (c : Cursor) : Except Stop (Bytes × Cursor) := do
  let (dots, after) ← scanGroups 0 c
  let oid := c.upTo after
  if dots = 0 || !Oid.isValid oid then .error (.name (.invalidOid oid c.pos))
  else .ok (oid, after)

/-- The type at the front. -/
def scanType (c : Cursor) : Except Stop (Bytes × Cursor) :=
  match c.rest with
  | [] => .error (.name (.unexpectedEnd c.pos))
  | b :: _ =>
    if isAlpha b then scanWord c
    else if isDigit b then scanOid c
    else .error (.name (.typeStart b c.pos))

def passEquals (c : Cursor) : Except Stop Cursor :=
  match c.rest with
  | [] => .error (.name (.unexpectedEnd c.pos))
  | b :: _ => if b = 61 then .ok (c.advance 1) else .error (.name (.expectedEquals b c.pos))

/-- How many bytes come before the next separator, which have to be plain. The spaces at their end
are not counted: of the `n` bytes that have been passed, the last `trailing` are spaces. -/
def valueLength (n trailing : Nat) : Bytes → Except Stop Nat
  | [] => .ok (n - trailing)
  | b :: s =>
    if isSpecial b then .error .tooComplex
    else if isSeparator b then .ok (n - trailing)
    else valueLength (n + 1) (if isSpace b then trailing + 1 else 0) s

/-- The value at the front. The spaces behind it are left. -/
def scanValue (c : Cursor) : Except Stop (Bytes × Cursor) := do
  let after := c.advance (← valueLength 0 0 c.rest)
  return (c.upTo after, after)

/-- The form in which types are compared: words in small letters, identifiers by their arcs. -/
def normalType (type : Bytes) : Except OidError Bytes :=
  match type with
  | [] => .ok []
  | b :: _ =>
    if isDigit b then
      match Oid.ofText type with
      | .error e => .error e
      | .ok oid => .ok oid.toText
    else .ok (type.map lowercase)

/-- The assertion at the front. -/
def scanAva (c : Cursor) : Except Stop (Ava × Cursor) := do
  let (type, afterType) ← scanType c.skipSpaces
  let afterEquals ← passEquals afterType.skipSpaces
  let (value, afterValue) ← scanValue afterEquals.skipSpaces
  let after := afterValue.skipSpaces
  let normal ← (normalType type).mapError .identifier
  return (⟨type, normal, value, value, c.upTo after⟩, after)

/-! ### What has been passed -/

theorem forall_head_cons {p : UInt8 → Prop} {b : UInt8} {s : Bytes} :
    (∀ c ∈ (b :: s).head?, p c) ↔ p b := by
  simp

theorem reads_scanWord {c d : Cursor} {word : Bytes} (h : scanWord c = .ok (word, d)) :
    c.Reads word d := by
  have hcut : c.rest = c.rest.takeWhile isWordPart ++ c.rest.dropWhile isWordPart :=
    List.takeWhile_append_dropWhile.symm
  have hword := Cursor.reads_advance hcut
  unfold scanWord at h
  dsimp only at h
  split at h
  · cases h
    exact hword
  · split at h
    · cases h
      exact hword
    · split at h <;> cases h

/-- The first of the digits and those that belong to it. -/
theorem reads_group (pos : Nat) (b : UInt8) (s : Bytes) :
    Cursor.Reads ⟨pos, b :: s⟩ (b :: groupTail b s)
      (Cursor.advance ⟨pos + 1, s⟩ (groupTail b s).length) := by
  have hs : ∃ t, s = groupTail b s ++ t := by
    unfold groupTail
    split
    · exact ⟨s, rfl⟩
    · exact ⟨_, List.takeWhile_append_dropWhile.symm⟩
  obtain ⟨t, ht⟩ := hs
  have hfirst : Cursor.Reads ⟨pos, b :: s⟩ [b] ⟨pos + 1, s⟩ := ⟨rfl, rfl⟩
  exact hfirst.append (Cursor.reads_advance ht)

theorem reads_one {c : Cursor} {b : UInt8} {s : Bytes} (h : c.rest = b :: s) :
    c.Reads [b] (c.advance 1) :=
  Cursor.reads_advance (s := [b]) h

/-- What is passed is a row of groups with a dot between any two. -/
theorem reads_scanGroups {dots n : Nat} {c d : Cursor} (h : scanGroups dots c = .ok (n, d)) :
    ∃ gs, gs ≠ [] ∧ dots + gs.length = n + 1 ∧
      (∀ g ∈ gs, ∃ b s, isDigit b = true ∧ g = b :: groupTail b s) ∧
      c.Reads ((ascii ".").intercalate gs) d ∧ ∀ b ∈ d.rest.head?, isTypeEnd b = true := by
  fun_induction scanGroups dots c with
  | case1 | case5 | case6 | case7 => cases h
  | case2 _ pos b s hb behind after hafter =>
    obtain ⟨rfl, hd⟩ := Prod.mk.inj (Except.ok.inj h)
    rw [← hd]
    exact ⟨[_], List.cons_ne_nil _ _, rfl, List.forall_mem_singleton.mpr ⟨b, s, hb, rfl⟩,
      List.intercalate_singleton.symm ▸ reads_group pos b s, by rw [hafter]; exact nofun⟩
  | case3 dots pos b s hb _ _ _ hafter ih =>
    obtain ⟨gs, hne, hcount, hgroups, hreads, hend⟩ := ih h
    refine ⟨(b :: groupTail b s) :: gs, List.cons_ne_nil _ _, ?_,
      List.forall_mem_cons.mpr ⟨⟨b, s, hb, rfl⟩, hgroups⟩, ?_, hend⟩
    · rw [List.length_cons]
      omega
    · rw [List.intercalate_cons_of_ne_nil hne]
      exact ((reads_group pos b s).append (reads_one hafter)).append hreads
  | case4 _ pos b s hb behind after e _ hafter _ he =>
    obtain ⟨rfl, hd⟩ := Prod.mk.inj (Except.ok.inj h)
    rw [← hd]
    exact ⟨[_], List.cons_ne_nil _ _, rfl, List.forall_mem_singleton.mpr ⟨b, s, hb, rfl⟩,
      List.intercalate_singleton.symm ▸ reads_group pos b s, hafter ▸ forall_head_cons.mpr he⟩

theorem reads_scanOid {c d : Cursor} {oid : Bytes} (h : scanOid c = .ok (oid, d)) :
    c.Reads oid d := by
  obtain ⟨⟨dots, after⟩, hgroups, h⟩ := bind_eq_ok_iff.mp h
  obtain ⟨gs, -, -, -, hreads, -⟩ := reads_scanGroups hgroups
  dsimp only at h
  split at h
  · cases h
  · cases h
    rwa [hreads.upTo_eq]

theorem reads_scanType {c d : Cursor} {type : Bytes} (h : scanType c = .ok (type, d)) :
    c.Reads type d := by
  unfold scanType at h
  split at h
  · cases h
  · split at h
    · exact reads_scanWord h
    · split at h
      · exact reads_scanOid h
      · cases h

theorem reads_passEquals {c d : Cursor} (h : passEquals c = .ok d) : c.Reads [61] d := by
  unfold passEquals at h
  split at h
  · cases h
  · next hc =>
    split at h
    · next hb =>
      cases h
      exact reads_one (hb ▸ hc)
    · cases h

/-- The value lies within the text. -/
theorem valueLength_le {n trailing k : Nat} {s : Bytes} (h : valueLength n trailing s = .ok k) :
    k ≤ n + s.length := by
  induction s generalizing n trailing with
  | nil =>
    cases h
    exact Nat.sub_le n trailing
  | cons b s ih =>
    rw [valueLength] at h
    split at h
    · cases h
    · split at h
      · cases h
        omega
      · have hrest := ih h
        rw [List.length_cons]
        omega

theorem reads_scanValue {c d : Cursor} {value : Bytes} (h : scanValue c = .ok (value, d)) :
    c.Reads value d := by
  obtain ⟨n, hn, h⟩ := bind_eq_ok_iff.mp h
  have hle : n ≤ c.rest.length := Nat.zero_add c.rest.length ▸ valueLength_le hn
  have hpassed : c.Reads (c.rest.take n) (c.advance n) :=
    ⟨(List.take_append_drop n c.rest).symm, by rw [List.length_take_of_le hle]; rfl⟩
  cases h
  rwa [hpassed.upTo_eq]

/-- The raw text of an assertion is what has been passed. -/
theorem reads_ava {c d : Cursor} {ava : Ava} (h : scanAva c = .ok (ava, d)) :
    c.Reads ava.rawText d := by
  obtain ⟨⟨type, afterType⟩, htype, h⟩ := bind_eq_ok_iff.mp h
  obtain ⟨afterEquals, hequals, h⟩ := bind_eq_ok_iff.mp h
  obtain ⟨⟨value, afterValue⟩, hvalue, h⟩ := bind_eq_ok_iff.mp h
  obtain ⟨normal, -, h⟩ := bind_eq_ok_iff.mp h
  cases h
  have hpassed := ((((((c.reads_skipSpaces).append (reads_scanType htype)).append
    afterType.reads_skipSpaces).append (reads_passEquals hequals)).append
    afterEquals.reads_skipSpaces).append (reads_scanValue hvalue)).append
    afterValue.reads_skipSpaces
  rwa [hpassed.upTo_eq]

/-! ### Names -/

/-- The relative names of a text that is not blank. -/
def scanRdns (c : Cursor) : Except Stop (List Rdn) :=
  match h : scanAva c with
  | .error e => .error e
  | .ok (ava, ⟨_, []⟩) => .ok [⟨[ava], ava.rawText, none⟩]
  | .ok (ava, ⟨pos, b :: s⟩) =>
    if isSeparator b then (⟨[ava], ava.rawText, some b⟩ :: ·) <$> scanRdns ⟨pos + 1, s⟩
    else .error (.name (.expectedSeparator b pos))
termination_by c.rest.length
decreasing_by
  rw [(reads_ava h).rest, List.length_append, List.length_cons]
  omega

/-- Reads a name and tells whether it was simple enough. If it was not, all that is read of it is
the text. A text of spaces is the name of no relative names. -/
def scan (text : Bytes) : Except DnFailure (Bool × Dn) :=
  if text.all isSpace then .ok (true, ⟨[], text⟩)
  else
    match scanRdns ⟨0, text⟩ with
    | .ok rdns => .ok (true, ⟨rdns, text⟩)
    | .error .tooComplex => .ok (false, ⟨[], text⟩)
    | .error (.name e) => .error (.name e)
    | .error (.identifier e) => .error (.identifier e)

end LdapBer.Dn
