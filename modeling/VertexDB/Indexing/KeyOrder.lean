import VertexDB.Indexing.BTreeIndex
import VertexDB.Indexing.HashIndex
import Mathlib.Data.List.Flatten
import Mathlib.Data.List.Lex
import Mathlib.Data.List.Nodup
import Mathlib.Data.Prod.Lex
import Mathlib.Order.Lattice

/-!
# The order of index keys

Without NaNs the comparisons `operator<` and `operator==` of values are those of a linear order: a
value of a column type, and a composite of such values, has a rank, and both comparisons compare the
ranks. On keys of this kind the ordered index finds what was inserted.
-/

namespace VertexDB

open Value List

variable {a : Value}

namespace Value

/-- A value of a column type that is not a NaN, or NULL. -/
def IsOrdered : Value → Prop
  | null | int _ | string _ => True
  | double value => value.isNaN = false
  | parameter _ | composite _ => False

/-- A key made of such values. -/
def IsKey : Value → Prop
  | composite parts => ∀ part ∈ parts, part.IsOrdered
  | value => value.IsOrdered

instance : DecidablePred IsOrdered
  | null | int _ | string _ => isTrue trivial
  | double value => inferInstanceAs (Decidable (value.isNaN = false))
  | parameter _ | composite _ => isFalse id

theorem IsOrdered.of_indistinct {v w : Value} (hw : w.IsOrdered) (h : v.Indistinct w) :
    v.IsOrdered := by
  cases h with
  | refl v => exact hw
  | double h => exact h.1.trans hw

/-- The alternative of a value, its number and its bytes. -/
abbrev CellRank := ℕ ×ₗ ℤ ×ₗ List ℕ

/-- The place of an ordered value in the order of values. -/
def cellRank : Value → CellRank
  | null => toLex (0, toLex (0, []))
  | int value => toLex (1, toLex (value.toInt, []))
  | double value => toLex (2, toLex (value.orderKey, []))
  | string value => toLex (3, toLex (0, value.map UInt8.toNat))
  | parameter _ => toLex (4, toLex (0, []))
  | composite _ => toLex (5, toLex (0, []))

/-- The place of a key in the order of keys. -/
def keyRank : Value → CellRank ×ₗ List CellRank
  | composite parts => toLex ((composite parts).cellRank, parts.map cellRank)
  | value => toLex (value.cellRank, [])

section Ranks

private theorem map_toNat_lt_iff (as bs : List UInt8) :
    as.map UInt8.toNat < bs.map UInt8.toNat ↔ as < bs := by
  induction as generalizing bs with
  | nil => cases bs <;> simp
  | cons a as ih =>
    cases bs with
    | nil => simp
    | cons b bs =>
      rw [map_cons, map_cons, cons_lt_cons_iff, cons_lt_cons_iff, ih,
        UInt8.toNat_inj, UInt8.lt_iff_toNat_lt]

private theorem map_toNat_inj {as bs : List UInt8} : as.map UInt8.toNat = bs.map UInt8.toNat ↔
    as = bs :=
  (map_injective_iff.mpr fun _ _ => UInt8.toNat_inj.mp).eq_iff

variable {b : Value}

theorem lt_iff_cellRank (ha : a.IsOrdered) (hb : b.IsOrdered) :
    a.lt b = true ↔ a.cellRank < b.cellRank := by
  cases a <;> cases b <;>
    simp_all [lt, cellRank, Prod.Lex.toLex_lt_toLex, dataIndex, IsOrdered, Double.lt,
      map_toNat_lt_iff, Int64.lt_iff_toInt_lt]

theorem beq_iff_cellRank (ha : a.IsOrdered) (hb : b.IsOrdered) :
    a.beq b = true ↔ a.cellRank = b.cellRank := by
  cases a <;> cases b <;>
    simp_all [beq, cellRank, IsOrdered, Double.beq, map_toNat_inj, Int64.toInt_inj]

theorem ltParts_iff_cellRank {as bs : List Value} (ha : ∀ a ∈ as, a.IsOrdered)
    (hb : ∀ b ∈ bs, b.IsOrdered) :
    ltParts as bs = true ↔ as.map cellRank < bs.map cellRank := by
  induction as generalizing bs with
  | nil => cases bs <;> simp [ltParts]
  | cons a as ih =>
    cases bs with
    | nil => simp [ltParts]
    | cons b bs =>
      have hlt := lt_iff_cellRank (ha a mem_cons_self) (hb b mem_cons_self)
      have hgt := lt_iff_cellRank (hb b mem_cons_self) (ha a mem_cons_self)
      have htail := ih (fun x hx => ha x (mem_cons_of_mem a hx))
        (fun x hx => hb x (mem_cons_of_mem b hx))
      rw [ltParts, Bool.or_eq_true, Bool.and_eq_true, Bool.not_eq_true', gt_eq_lt,
        ← Bool.not_eq_true, hlt, hgt, htail, map_cons, map_cons, cons_lt_cons_iff,
        not_lt]
      constructor
      · rintro (h | ⟨hle, h⟩)
        · exact Or.inl h
        · exact (lt_or_eq_of_le hle).imp_right fun heq => ⟨heq, h⟩
      · rintro (h | ⟨heq, h⟩)
        · exact Or.inl h
        · exact Or.inr ⟨heq.le, h⟩

theorem beqParts_iff_cellRank {as bs : List Value} (ha : ∀ a ∈ as, a.IsOrdered)
    (hb : ∀ b ∈ bs, b.IsOrdered) :
    beqParts as bs = true ↔ as.map cellRank = bs.map cellRank := by
  induction as generalizing bs with
  | nil => cases bs <;> simp [beqParts]
  | cons a as ih =>
    cases bs with
    | nil => simp [beqParts]
    | cons b bs =>
      have hhead := beq_iff_cellRank (ha a mem_cons_self) (hb b mem_cons_self)
      have htail := ih (fun x hx => ha x (mem_cons_of_mem a hx))
        (fun x hx => hb x (mem_cons_of_mem b hx))
      rw [beqParts, Bool.and_eq_true, hhead, htail, map_cons, map_cons, cons.injEq]

theorem IsOrdered.isKey (h : a.IsOrdered) : a.IsKey := by
  cases a <;> first | exact h | exact h.elim

theorem keyRank_of_isOrdered (h : a.IsOrdered) : a.keyRank = toLex (a.cellRank, []) := by
  cases a <;> first | rfl | exact h.elim

theorem isOrdered_or_composite (h : a.IsKey) :
    a.IsOrdered ∨ ∃ parts, a = composite parts ∧ ∀ part ∈ parts, part.IsOrdered := by
  cases a with
  | composite parts => exact Or.inr ⟨parts, rfl, h⟩
  | _ => exact Or.inl h

theorem IsOrdered.lt_composite (h : a.IsOrdered) (parts : List Value) :
    a.lt (composite parts) = true ∧ (composite parts).lt a = false ∧
      a.beq (composite parts) = false ∧ a.cellRank < (composite parts).cellRank := by
  cases a <;> simp_all [lt, beq, dataIndex, IsOrdered, cellRank, Prod.Lex.toLex_lt_toLex]

theorem lt_iff_keyRank (ha : a.IsKey) (hb : b.IsKey) :
    a.lt b = true ↔ a.keyRank < b.keyRank := by
  rcases isOrdered_or_composite ha with ha | ⟨as, rfl, has⟩ <;>
    rcases isOrdered_or_composite hb with hb | ⟨bs, rfl, hbs⟩
  · rw [lt_iff_cellRank ha hb, keyRank_of_isOrdered ha, keyRank_of_isOrdered hb,
      Prod.Lex.toLex_lt_toLex]
    simp
  · obtain ⟨hlt, -, -, hrank⟩ := ha.lt_composite bs
    rw [hlt, keyRank_of_isOrdered ha, keyRank, Prod.Lex.toLex_lt_toLex]
    simp [hrank]
  · obtain ⟨-, hlt, -, hrank⟩ := hb.lt_composite as
    rw [hlt, keyRank_of_isOrdered hb, keyRank, Prod.Lex.toLex_lt_toLex]
    simp [hrank.not_gt, hrank.ne']
  · rw [lt, ltParts_iff_cellRank has hbs, keyRank, keyRank, Prod.Lex.toLex_lt_toLex]
    simp [cellRank]

theorem beq_iff_keyRank (ha : a.IsKey) (hb : b.IsKey) :
    a.beq b = true ↔ a.keyRank = b.keyRank := by
  rcases isOrdered_or_composite ha with ha | ⟨as, rfl, has⟩ <;>
    rcases isOrdered_or_composite hb with hb | ⟨bs, rfl, hbs⟩
  · rw [beq_iff_cellRank ha hb, keyRank_of_isOrdered ha, keyRank_of_isOrdered hb]
    simp
  · obtain ⟨-, -, hbeq, hrank⟩ := ha.lt_composite bs
    rw [hbeq, keyRank_of_isOrdered ha, keyRank]
    simp [hrank.ne]
  · obtain ⟨-, -, hbeq, hrank⟩ := hb.lt_composite as
    rw [beq_comm, hbeq, keyRank_of_isOrdered hb, keyRank]
    simp [hrank.ne']
  · rw [beq, beqParts_iff_cellRank has hbs, keyRank, keyRank]
    simp [cellRank]

theorem IsOrdered.of_beq (ha : a.IsOrdered) (h : a.beq b = true) : b.IsOrdered := by
  cases a <;> cases b <;> simp_all [beq, IsOrdered, Double.beq]

theorem isOrdered_of_beqParts {as bs : List Value} (ha : ∀ a ∈ as, a.IsOrdered)
    (h : beqParts as bs = true) : ∀ b ∈ bs, b.IsOrdered := by
  induction as generalizing bs with
  | nil => cases bs <;> simp_all [beqParts]
  | cons a as ih =>
    cases bs with
    | nil => simp
    | cons b bs =>
      rw [beqParts, Bool.and_eq_true] at h
      rw [forall_mem_cons] at ha ⊢
      exact ⟨ha.1.of_beq h.1, ih ha.2 h.2⟩

theorem IsKey.of_beq (ha : a.IsKey) (h : a.beq b = true) : b.IsKey := by
  rcases isOrdered_or_composite ha with ha | ⟨as, rfl, has⟩
  · exact (ha.of_beq h).isKey
  · cases b with
    | composite bs => exact isOrdered_of_beqParts has h
    | _ => simp [beq] at h

/-- With a value that is no ordered one, a comparison looks at the alternatives only. -/
theorem lt_iff_dataIndex (ha : a.IsOrdered) (hb : ¬b.IsOrdered) :
    (a.lt b = true ↔ a.dataIndex < b.dataIndex) ∧ (b.lt a = true ↔ b.dataIndex < a.dataIndex) := by
  cases b with
  | null | int _ | string _ => exact absurd trivial hb
  | double d =>
    have hnan : d.isNaN = true := by simpa [IsOrdered] using hb
    cases a <;> simp_all [lt, dataIndex, IsOrdered, Double.lt]
  | parameter _ | composite _ => cases a <;> simp_all [lt, dataIndex, IsOrdered]

theorem dataIndex_le_of_cellRank_lt (h : a.cellRank < b.cellRank) :
    a.dataIndex ≤ b.dataIndex := by
  rw [Prod.Lex.lt_iff] at h
  cases a <;> cases b <;> simp_all [cellRank, dataIndex]

/-- What is below a value at one place is below it at the places before, and what is above it at
one place is above it at the places after. -/
theorem lt_of_keyRank_lt (ha : a.IsOrdered) (hb : b.IsOrdered) (hab : a.keyRank < b.keyRank)
    (v : Value) :
    (b.lt v = true → a.lt v = true) ∧ (v.lt a = true → v.lt b = true) := by
  rw [keyRank_of_isOrdered ha, keyRank_of_isOrdered hb] at hab
  have hcell : a.cellRank < b.cellRank := by
    rcases Prod.Lex.lt_iff.mp hab with h | ⟨-, h⟩
    · exact h
    · exact absurd h (lt_irrefl _)
  by_cases hv : v.IsOrdered
  · rw [lt_iff_cellRank hb hv, lt_iff_cellRank ha hv, lt_iff_cellRank hv ha, lt_iff_cellRank hv hb]
    exact ⟨hcell.trans, fun h => h.trans hcell⟩
  · have hle := dataIndex_le_of_cellRank_lt hcell
    rw [(lt_iff_dataIndex hb hv).1, (lt_iff_dataIndex ha hv).1, (lt_iff_dataIndex ha hv).2,
      (lt_iff_dataIndex hb hv).2]
    exact ⟨hle.trans_lt, fun h => h.trans_le hle⟩

theorem IsOrdered.beq_self (ha : a.IsOrdered) : a.beq a = true :=
  (beq_iff_cellRank ha ha).mpr rfl

theorem compareValues_congr_of_beq (ha : a.IsOrdered) (hab : a.beq b = true)
    (op : ComparisonOperator) (v : Value) : compareValues a op v = compareValues b op v := by
  have hb := ha.of_beq hab
  have hrank := (beq_iff_cellRank ha hb).mp hab
  have hidx : a.dataIndex = b.dataIndex := by
    cases a <;> cases b <;> first | rfl | simp [beq] at hab
  rw [Bool.eq_iff_iff]
  cases op with
  | equal =>
    rw [compareValues, compareValues, beq_congr_left hab]
  | less =>
    rw [compareValues, compareValues]
    by_cases hv : v.IsOrdered
    · rw [lt_iff_cellRank ha hv, lt_iff_cellRank hb hv, hrank]
    · rw [(lt_iff_dataIndex ha hv).1, (lt_iff_dataIndex hb hv).1, hidx]
  | greater =>
    rw [compareValues, compareValues]
    by_cases hv : v.IsOrdered
    · rw [lt_iff_cellRank hv ha, lt_iff_cellRank hv hb, hrank]
    · rw [(lt_iff_dataIndex ha hv).2, (lt_iff_dataIndex hb hv).2, hidx]

end Ranks

section Nested

mutual

/-- A value without parameters and NaNs, however nested. -/
def Comparable : Value → Prop
  | composite parts => ComparableParts parts
  | value => value.IsOrdered

/-- Parts without parameters and NaNs. -/
def ComparableParts : List Value → Prop
  | [] => True
  | part :: parts => part.Comparable ∧ ComparableParts parts

end

/-- A rank below those of values. -/
def endRank : CellRank := toLex (0, toLex (-1, []))

mutual

/-- The ranks of the cells of a value from left to right, with a mark at the end of each
composite. -/
def code : Value → List CellRank
  | composite parts => (composite parts).cellRank :: codeParts parts
  | value => [value.cellRank]

/-- The ranks of the parts and the mark. -/
def codeParts : List Value → List CellRank
  | [] => [endRank]
  | part :: parts => part.code ++ codeParts parts

end

/-- The codes compare as `lt`, `gt` and `beq` say, whatever follows them. -/
inductive Coded (c c' : List CellRank) : Bool → Bool → Bool → Prop
  | lt (h : ∀ x y, c ++ x < c' ++ y) : Coded c c' true false false
  | gt (h : ∀ x y, c' ++ y < c ++ x) : Coded c c' false true false
  | eq (h : c = c') : Coded c c' false false true

variable {c c' d d' : List CellRank} {lt gt beq lt' gt' beq' : Bool} {r r' : CellRank} {b : Value}

theorem Coded.of_lt (h : r < r') : Coded (r :: c) (r' :: c') true false false :=
  .lt fun _ _ => cons_lt_cons_iff.mpr (Or.inl h)

theorem Coded.of_gt (h : r' < r) : Coded (r :: c) (r' :: c') false true false :=
  .gt fun _ _ => cons_lt_cons_iff.mpr (Or.inl h)

theorem Coded.symm (h : Coded c c' lt gt beq) : Coded c' c gt lt beq := by
  cases h with
  | lt h => exact .gt fun x y => h y x
  | gt h => exact .lt fun x y => h y x
  | eq h => exact .eq h.symm

theorem Coded.lt_iff (h : Coded c c' lt gt beq) : lt = true ↔ c < c' := by
  cases h with
  | lt h => simpa using h [] []
  | gt h => simpa using (h [] []).le
  | eq h => simp [h]

theorem Coded.eq_iff (h : Coded c c' lt gt beq) : beq = true ↔ c = c' := by
  cases h with
  | lt h => simpa using (h [] []).ne
  | gt h => simpa using (h [] []).ne'
  | eq h => simp [h]

theorem Coded.append (h : Coded c c' lt gt beq) (h' : Coded d d' lt' gt' beq') :
    Coded (c ++ d) (c' ++ d') (lt || (!gt && lt')) (gt || (!lt && gt')) (beq && beq') := by
  cases h with
  | lt h => exact .lt fun x y => by simpa using h (d ++ x) (d' ++ y)
  | gt h => exact .gt fun x y => by simpa using h (d ++ x) (d' ++ y)
  | eq h =>
    subst h
    cases h' with
    | lt h => exact .lt fun x y => by simpa using append_left_lt (h x y)
    | gt h => exact .gt fun x y => by simpa using append_left_lt (h x y)
    | eq h => exact .eq (h ▸ rfl)

theorem endRank_lt (a : Value) : endRank < a.cellRank := by
  cases a <;> simp [endRank, cellRank, Prod.Lex.toLex_lt_toLex]

theorem exists_code (a : Value) : ∃ rest, a.code = a.cellRank :: rest := by
  cases a <;> exact ⟨_, rfl⟩

theorem coded_of_isOrdered (ha : a.IsOrdered) (hb : b.IsOrdered) :
    Coded [a.cellRank] [b.cellRank] (a.lt b) (a.gt b) (a.beq b) := by
  have hlt := lt_iff_cellRank ha hb
  have hgt := lt_iff_cellRank hb ha
  have hbeq := beq_iff_cellRank ha hb
  rw [gt_eq_lt]
  rcases lt_trichotomy a.cellRank b.cellRank with h | h | h
  · rw [hlt.mpr h, Bool.eq_false_iff.mpr (hgt.not.mpr h.not_gt),
      Bool.eq_false_iff.mpr (hbeq.not.mpr h.ne)]
    exact .of_lt h
  · rw [hbeq.mpr h, Bool.eq_false_iff.mpr (hlt.not.mpr h.not_lt),
      Bool.eq_false_iff.mpr (hgt.not.mpr h.not_gt)]
    exact .eq (by rw [h])
  · rw [hgt.mpr h, Bool.eq_false_iff.mpr (hlt.not.mpr h.not_gt),
      Bool.eq_false_iff.mpr (hbeq.not.mpr h.ne')]
    exact .of_gt h

theorem coded_cell (ha : a.IsOrdered) (hb : b.Comparable) :
    Coded a.code b.code (a.lt b) (a.gt b) (a.beq b) := by
  have hcode : a.code = [a.cellRank] := by cases a <;> first | rfl | exact ha.elim
  rw [hcode]
  cases b with
  | composite bs =>
    obtain ⟨hlt, hgt, hbeq, hrank⟩ := ha.lt_composite bs
    rw [gt_eq_lt, hlt, hgt, hbeq]
    exact .of_lt hrank
  | _ => exact coded_of_isOrdered ha hb

mutual

theorem coded : (a b : Value) → a.Comparable → b.Comparable →
    Coded a.code b.code (a.lt b) (a.gt b) (a.beq b)
  | null, _, ha, hb | int _, _, ha, hb | double _, _, ha, hb | string _, _, ha, hb
  | parameter _, _, ha, hb => coded_cell ha hb
  | composite as, b, ha, hb => by
    cases b with
    | composite bs =>
      have hhead : [(composite as).cellRank] = [(composite bs).cellRank] := rfl
      exact (Coded.eq hhead).append (codedParts as bs ha hb)
    | _ =>
      rw [gt_eq_lt, (exchange _ _).2, beq_comm]
      exact .symm (coded_cell hb ha)

theorem codedParts : (as bs : List Value) → ComparableParts as → ComparableParts bs →
    Coded (codeParts as) (codeParts bs) (ltParts as bs) (gtParts as bs) (beqParts as bs)
  | [], [], _, _ => .eq rfl
  | [], b :: bs, _, _ => by
    obtain ⟨rest, hrest⟩ := exists_code b
    rw [codeParts, codeParts, hrest]
    exact .of_lt (endRank_lt b)
  | a :: as, [], _, _ => by
    obtain ⟨rest, hrest⟩ := exists_code a
    rw [codeParts, codeParts, hrest]
    exact .of_gt (endRank_lt a)
  | a :: as, b :: bs, ha, hb => (coded a b ha.1 hb.1).append (codedParts as bs ha.2 hb.2)

end

mutual

theorem exists_valueHash (std : StdHash) : (a : Value) → a.Comparable →
    ∃ hash, HashIndex.valueHash std a = .ok hash
  | composite parts, h => exists_hashParts std HashIndex.hashSeed parts h
  | null, _ | int _, _ | double _, _ | string _, _ => ⟨_, rfl⟩
  | parameter _, h => h.elim

theorem exists_hashParts (std : StdHash) (seed : UInt64) : (parts : List Value) →
    ComparableParts parts → ∃ hash, HashIndex.hashParts std seed parts = .ok hash
  | [], _ => ⟨seed, rfl⟩
  | part :: parts, h => by
    obtain ⟨hash, hhash⟩ := exists_valueHash std part h.1
    rw [HashIndex.hashParts, hhash]
    exact exists_hashParts std _ parts h.2

end

/-- On values without parameters and NaNs `operator<` is a strict total order, `operator==` holds
between the values that it does not tell apart, and equal values have one hash. -/
theorem comparable_order (a b c : Value) (ha : a.Comparable) (hb : b.Comparable) (hc : c.Comparable)
    (std : StdHash) :
    a.lt a = false ∧ (a.lt b = true → b.lt c = true → a.lt c = true) ∧
      (a.lt b = true ∨ a.beq b = true ∨ b.lt a = true) ∧
      (a.beq b = true ↔ a.lt b = false ∧ b.lt a = false) ∧
      (a.beq b = true → ∃ hash, HashIndex.valueHash std a = .ok hash ∧
        HashIndex.valueHash std b = .ok hash) := by
  have hab := coded a b ha hb
  have hba := coded b a hb ha
  refine ⟨?_, fun h h' => ?_, ?_, ?_, fun h => ?_⟩
  · rw [Bool.eq_false_iff, ne_eq, (coded a a ha ha).lt_iff]
    exact lt_irrefl _
  · rw [hab.lt_iff] at h
    rw [(coded b c hb hc).lt_iff] at h'
    exact (coded a c ha hc).lt_iff.mpr (h.trans h')
  · rw [hab.lt_iff, hab.eq_iff, hba.lt_iff]
    exact lt_trichotomy _ _
  · rw [Bool.eq_false_iff, Bool.eq_false_iff, ne_eq, ne_eq, hab.lt_iff, hab.eq_iff,
      hba.lt_iff, not_lt, not_lt, and_comm]
    exact le_antisymm_iff
  · obtain ⟨hash, hhash⟩ := exists_valueHash std b hb
    exact ⟨hash, (HashIndex.valueHash_congr std a b h).trans hhash, hhash⟩

/-- A hash of the bits, with one hash for the two zeros. -/
def bitsHash : StdHash where
  int value := value.toUInt64
  double value := if value.magnitude = 0 then 0 else value.bits
  string text := text.foldl (fun hash byte => 31 * hash + byte.toUInt64) 0
  double_congr a b h := by
    rcases Double.eq_or_zero_of_beq h with rfl | ⟨ha, hb⟩
    · rfl
    · rw [if_pos ha, if_pos hb]

/-- Two keys that differ in the sign of a zero, and a key above both. -/
theorem comparable_order_nested :
    (composite [double ⟨0⟩, composite [int 1]]).Comparable ∧
    (composite [double ⟨0x8000000000000000⟩, composite [int 1]]).Comparable ∧
    (composite [string []]).Comparable ∧
    (composite [double ⟨0⟩, composite []]).lt (composite [string []]) = true ∧
    ∃ hash, HashIndex.valueHash bitsHash (composite [double ⟨0⟩, composite [int 1]]) = .ok hash ∧
      HashIndex.valueHash bitsHash (composite [double ⟨0x8000000000000000⟩, composite [int 1]]) =
        .ok hash := by
  have h₀ : (composite [double ⟨0⟩, composite []]).Comparable :=
    ⟨(by decide : Double.isNaN ⟨0⟩ = false), trivial, trivial⟩
  have h₁ : (composite [double ⟨0⟩, composite [int 1]]).Comparable :=
    ⟨h₀.1, ⟨trivial, trivial⟩, trivial⟩
  have h₂ : (composite [double ⟨0x8000000000000000⟩, composite [int 1]]).Comparable :=
    ⟨(by decide : Double.isNaN ⟨0x8000000000000000⟩ = false), ⟨trivial, trivial⟩, trivial⟩
  have h₃ : (composite [string []]).Comparable := ⟨trivial, trivial⟩
  obtain ⟨-, -, -, -, hhash⟩ := comparable_order _ _ _ h₁ h₂ h₃ bitsHash
  obtain ⟨-, htrans, -⟩ := comparable_order _ _ _ h₀ h₁ h₃ bitsHash
  exact ⟨h₁, h₂, h₃, htrans (by decide +kernel) (by decide +kernel), hhash (by decide +kernel)⟩

end Nested

end Value

namespace BTreeIndex

/-- The leaves hold the row id under a key that equals the given one. -/
def Holds (entries : List (Value × List ℕ)) (rowId : ℕ) (key : Value) : Prop :=
  ∃ entry ∈ entries, entry.1.beq key = true ∧ rowId ∈ entry.2

theorem holds_cons (entry : Value × List ℕ) (entries : List (Value × List ℕ)) (r : ℕ) (q : Value) :
    Holds (entry :: entries) r q ↔ entry.1.beq q = true ∧ r ∈ entry.2 ∨ Holds entries r q := by
  simp only [Holds, exists_mem_cons_iff]

/-- The keys of the leaves are without NaNs and grow from left to right. -/
structure Sorted (entries : List (Value × List ℕ)) : Prop where
  isKey : ∀ entry ∈ entries, entry.1.IsKey
  pairwise : entries.Pairwise fun a b => a.1.keyRank < b.1.keyRank

theorem sorted_nil : Sorted [] := ⟨by simp, List.Pairwise.nil⟩

theorem Sorted.tail {entry : Value × List ℕ} {entries : List (Value × List ℕ)}
    (h : Sorted (entry :: entries)) : Sorted entries :=
  ⟨fun e he => h.isKey e (mem_cons_of_mem entry he), h.pairwise.tail⟩

/-- Insertion adds the row id under the keys equal to the one inserted. -/
theorem holds_insertEntry (key : Value) (rowId : ℕ) (entries : List (Value × List ℕ)) (r : ℕ)
    (q : Value) : Holds (insertEntry key rowId entries) r q ↔
      Holds entries r q ∨ r = rowId ∧ key.beq q = true := by
  induction entries with
  | nil => simp [insertEntry, Holds, and_comm]
  | cons entry entries ih =>
    obtain ⟨k, rowIds⟩ := entry
    rw [insertEntry]
    split_ifs with hlt hbeq
    · rw [holds_cons, holds_cons, ih, or_assoc]
    · rw [holds_cons, holds_cons, mem_append, mem_singleton, beq_congr_left hbeq]
      tauto
    · rw [holds_cons, holds_cons, mem_singleton]
      tauto

theorem Sorted.insertEntry {entries : List (Value × List ℕ)} (h : Sorted entries) {key : Value}
    (hkey : key.IsKey) (rowId : ℕ) :
    Sorted (BTreeIndex.insertEntry key rowId entries) ∧
      ∀ entry ∈ BTreeIndex.insertEntry key rowId entries,
        entry.1 = key ∨ ∃ ids, (entry.1, ids) ∈ entries := by
  induction entries with
  | nil => exact ⟨⟨by simpa [BTreeIndex.insertEntry] using hkey, by simp [BTreeIndex.insertEntry]⟩,
      by simp [BTreeIndex.insertEntry]⟩
  | cons entry entries ih =>
    obtain ⟨k, rowIds⟩ := entry
    have hk : k.IsKey := h.isKey _ mem_cons_self
    obtain ⟨hhead, htail⟩ := pairwise_cons.mp h.pairwise
    rw [BTreeIndex.insertEntry]
    split_ifs with hlt hbeq
    · obtain ⟨hsorted, hold⟩ := ih h.tail
      refine ⟨⟨forall_mem_cons.mpr ⟨hk, hsorted.isKey⟩, pairwise_cons.mpr
        ⟨fun e he => ?_, hsorted.pairwise⟩⟩, forall_mem_cons.mpr ⟨Or.inr ⟨rowIds, by simp⟩,
          fun e he => (hold e he).imp_right fun ⟨ids, hids⟩ => ⟨ids, mem_cons_of_mem _ hids⟩⟩⟩
      rcases hold e he with heq | ⟨ids, hids⟩
      · rw [heq]
        exact (lt_iff_keyRank hk hkey).mp hlt
      · exact hhead (e.1, ids) hids
    · refine ⟨⟨forall_mem_cons.mpr ⟨hk, h.tail.isKey⟩, pairwise_cons.mpr
        ⟨hhead, htail⟩⟩, forall_mem_cons.mpr ⟨Or.inr ⟨rowIds, by simp⟩,
          fun e he => Or.inr ⟨e.2, mem_cons_of_mem _ he⟩⟩⟩
    · have hrank : key.keyRank < k.keyRank := by
        rw [lt_iff_keyRank hk hkey, not_lt] at hlt
        rw [beq_iff_keyRank hk hkey] at hbeq
        exact lt_of_le_of_ne hlt (Ne.symm hbeq)
      refine ⟨⟨forall_mem_cons.mpr ⟨hkey, h.isKey⟩, pairwise_cons.mpr
        ⟨forall_mem_cons.mpr ⟨hrank, fun e he => hrank.trans (hhead e he)⟩, h.pairwise⟩⟩,
        forall_mem_cons.mpr ⟨Or.inl rfl, fun e he => Or.inr ⟨e.2, he⟩⟩⟩

/-- On growing keys `find` returns what the leaves hold. -/
theorem Sorted.mem_find {index : BTreeIndex} (h : Sorted index.entries) (r : ℕ) (key : Value) :
    r ∈ index.find key ↔ Holds index.entries r key := by
  rw [find]
  generalize index.entries = entries at h
  induction entries with
  | nil => simp [Holds]
  | cons entry entries ih =>
    have hk := h.isKey entry mem_cons_self
    obtain ⟨hhead, -⟩ := pairwise_cons.mp h.pairwise
    rw [find?_cons, holds_cons]
    cases hlt : entry.1.lt key with
    | true =>
      have hne : entry.1.beq key = false := by
        by_contra hbeq
        rw [Bool.not_eq_false] at hbeq
        have hkey := hk.of_beq hbeq
        rw [lt_iff_keyRank hk hkey, (beq_iff_keyRank hk hkey).mp hbeq] at hlt
        exact lt_irrefl _ hlt
      simpa [hne] using ih h.tail
    | false =>
      -- the keys after one that is not smaller are greater, so none of them equals the key
      have hrest : ¬ Holds entries r key := by
        rintro ⟨e, he, hbeq, -⟩
        have hke := h.isKey e (mem_cons_of_mem entry he)
        have hkey := hke.of_beq hbeq
        have hrank := hhead e he
        rw [(beq_iff_keyRank hke hkey).mp hbeq, ← lt_iff_keyRank hk hkey, hlt] at hrank
        cases hrank
      cases hbeq : entry.1.beq key <;> simp [hbeq, hrest]

section Ranges

variable {index : BTreeIndex} (h : Sorted index.entries)
  (hkeys : ∀ entry ∈ index.entries, entry.1.IsOrdered)

include h hkeys

/-- On growing keys `lessThan` returns what stands under the smaller keys. -/
theorem Sorted.mem_lessThan (r : ℕ) (v : Value) :
    r ∈ index.lessThan v ↔ ∃ entry ∈ index.entries, entry.1.lt v = true ∧ r ∈ entry.2 := by
  rw [lessThan, mem_flatMap]
  generalize index.entries = entries at h hkeys
  induction entries with
  | nil => simp
  | cons entry entries ih =>
    obtain ⟨hhead, -⟩ := pairwise_cons.mp h.pairwise
    obtain ⟨hk, hkeys'⟩ := forall_mem_cons.mp hkeys
    rw [takeWhile_cons, exists_mem_cons_iff]
    cases hlt : entry.1.lt v with
    | true => simp [ih h.tail hkeys']
    | false =>
      have hrest : ∀ e ∈ entries, e.1.lt v = false := by
        intro e he
        by_contra hne
        rw [Bool.not_eq_false] at hne
        rw [(lt_of_keyRank_lt hk (hkeys' e he) (hhead e he) v).1 hne] at hlt
        cases hlt
      simp only [Bool.false_eq_true, if_false, not_mem_nil, false_and, exists_false, false_or,
        false_iff, not_exists, not_and]
      intro e he hlt'
      rw [hrest e he] at hlt'
      cases hlt'

/-- On growing keys `greaterThan` returns what stands under the greater keys. -/
theorem Sorted.mem_greaterThan (r : ℕ) (v : Value) :
    r ∈ index.greaterThan v ↔ ∃ entry ∈ index.entries, v.lt entry.1 = true ∧ r ∈ entry.2 := by
  rw [greaterThan, mem_flatMap]
  generalize index.entries = entries at h hkeys
  induction entries with
  | nil => simp
  | cons entry entries ih =>
    obtain ⟨hhead, -⟩ := pairwise_cons.mp h.pairwise
    obtain ⟨hk, hkeys'⟩ := forall_mem_cons.mp hkeys
    rw [dropWhile_cons, exists_mem_cons_iff]
    cases hlt : v.lt entry.1 with
    | false => simp [ih h.tail hkeys']
    | true =>
      have hrest : ∀ e ∈ entries, v.lt e.1 = true := fun e he =>
        (lt_of_keyRank_lt hk (hkeys' e he) (hhead e he) v).2 hlt
      simp only [Bool.not_true, Bool.false_eq_true, if_false, exists_mem_cons_iff, true_and]
      refine or_congr_right (exists_congr fun e => and_congr_right fun he => ?_)
      simp [hrest e he]

/-- On growing keys an ordered lookup returns what stands under the keys of the comparison. -/
theorem Sorted.mem_orderedFind (op : ComparisonOperator) (r : ℕ) (v : Value) :
    r ∈ index.orderedFind op v ↔
      ∃ entry ∈ index.entries, compareValues entry.1 op v = true ∧ r ∈ entry.2 := by
  cases op with
  | equal => exact h.mem_find r v
  | less => exact h.mem_lessThan hkeys r v
  | greater => exact h.mem_greaterThan hkeys r v

end Ranges

section AnyKeys

variable {entries : List (Value × List ℕ)} {text : List UInt8}

theorem perm_insertEntry (key : Value) (rowId : ℕ) (entries : List (Value × List ℕ)) :
    ((insertEntry key rowId entries).flatMap Prod.snd).Perm
      (rowId :: entries.flatMap Prod.snd) := by
  induction entries with
  | nil => simp [insertEntry]
  | cons entry entries ih =>
    obtain ⟨k, rowIds⟩ := entry
    rw [insertEntry]
    split_ifs
    · rw [flatMap_cons, flatMap_cons]
      exact (ih.append_left rowIds).trans perm_middle
    · simp only [flatMap_cons, append_assoc, singleton_append]
      exact perm_middle
    · simp

/-- Each ordered lookup returns some of the row ids, each as often as it is held. -/
theorem orderedFind_sublist (index : BTreeIndex) (op : ComparisonOperator) (v : Value) :
    (index.orderedFind op v).Sublist (index.entries.flatMap Prod.snd) := by
  cases op with
  | equal =>
    rw [orderedFind, find]
    split
    · rename_i entry hentry
      split
      · have hone := singleton_sublist.mpr (mem_of_find?_eq_some hentry)
        simpa using hone.flatMap Prod.snd
      · exact nil_sublist _
    · exact nil_sublist _
  | less => exact (takeWhile_sublist _).flatMap _
  | greater => exact (dropWhile_sublist _).flatMap _

/-- The texts among the keys stand after smaller keys only. Other keys may have NaNs. -/
def TextsGrow (entries : List (Value × List ℕ)) : Prop :=
  entries.Pairwise fun a b => ∀ text, b.1 = .string text → a.1.lt (.string text) = true

/-- What is inserted before a key is smaller than the texts from there on. -/
theorem lt_text_of_not_lt {k key : Value} (hlt : ¬k.lt key = true)
    (hbeq : ¬k.beq key = true) (h : k = .string text ∨ k.lt (.string text) = true) :
    key.lt (.string text) = true := by
  cases key with
  | string s =>
    cases k with
    | string u =>
      have htexts : ∀ v, (string v).IsOrdered := fun _ => trivial
      rw [lt_iff_cellRank (htexts u) (htexts s), not_lt] at hlt
      rw [beq_iff_cellRank (htexts u) (htexts s)] at hbeq
      have hsu := lt_of_le_of_ne hlt (Ne.symm hbeq)
      rw [lt_iff_cellRank (htexts s) (htexts text)]
      rcases h with heq | h
      · rwa [← heq]
      · exact hsu.trans ((lt_iff_cellRank (htexts u) (htexts text)).mp h)
    | _ => simp_all [lt, dataIndex]
  | _ => cases k <;> simp_all [lt, dataIndex]

theorem mem_insertEntry {key : Value} {rowId : ℕ} {entry : Value × List ℕ}
    (h : entry ∈ insertEntry key rowId entries) :
    entry.1 = key ∨ ∃ ids, (entry.1, ids) ∈ entries := by
  induction entries with
  | nil => exact Or.inl (by simp_all [insertEntry])
  | cons head entries ih =>
    obtain ⟨k, rowIds⟩ := head
    rw [insertEntry] at h
    split_ifs at h
    · rcases mem_cons.mp h with rfl | h
      · exact Or.inr ⟨rowIds, mem_cons_self⟩
      · exact (ih h).imp_right fun ⟨ids, hids⟩ => ⟨ids, mem_cons_of_mem _ hids⟩
    · rcases mem_cons.mp h with rfl | h
      · exact Or.inr ⟨rowIds, mem_cons_self⟩
      · exact Or.inr ⟨entry.2, mem_cons_of_mem _ h⟩
    · rcases mem_cons.mp h with rfl | h
      · exact Or.inl rfl
      · exact Or.inr ⟨entry.2, h⟩

theorem TextsGrow.insertEntry (h : TextsGrow entries) (key : Value) (rowId : ℕ) :
    TextsGrow (BTreeIndex.insertEntry key rowId entries) := by
  induction entries with
  | nil => simp [TextsGrow, BTreeIndex.insertEntry]
  | cons head entries ih =>
    obtain ⟨k, rowIds⟩ := head
    obtain ⟨hhead, htail⟩ := pairwise_cons.mp h
    rw [BTreeIndex.insertEntry]
    split_ifs with hlt hbeq
    · refine pairwise_cons.mpr ⟨fun entry hentry text htext => ?_, ih htail⟩
      rcases mem_insertEntry hentry with heq | ⟨ids, hids⟩
      · rw [← htext, heq]
        exact hlt
      · exact hhead _ hids text htext
    · exact pairwise_cons.mpr ⟨hhead, htail⟩
    · refine pairwise_cons.mpr ⟨fun entry hentry text htext => ?_, h⟩
      refine lt_text_of_not_lt hlt hbeq ?_
      rcases mem_cons.mp hentry with rfl | hentry
      · exact Or.inl htext
      · exact Or.inr (hhead entry hentry text htext)

theorem not_text_lt (h : a.lt (.string text) = true) :
    (Value.string text).lt a = false := by
  cases a with
  | string s =>
    have htexts : ∀ v, (string v).IsOrdered := fun _ => trivial
    rw [lt_iff_cellRank (htexts s) (htexts text)] at h
    rw [← Bool.not_eq_true, lt_iff_cellRank (htexts text) (htexts s)]
    exact h.asymm
  | _ => simp_all [lt, dataIndex]

/-- A text is not among the keys that `greaterThan` takes for greater. -/
theorem TextsGrow.not_mem_greaterThan {index : BTreeIndex} (h : TextsGrow index.entries)
    (hnodup : (index.entries.flatMap Prod.snd).Nodup) {r : ℕ}
    (hr : Holds index.entries r (.string text)) : r ∉ index.greaterThan (.string text) := by
  obtain ⟨entry, hentry, hbeq, hr⟩ := hr
  have htext : entry.1 = .string text := by
    cases hkey : entry.1 <;> simp_all [beq]
  have hbefore : entry ∈ index.entries.takeWhile fun entry => !(string text).lt entry.1 := by
    generalize index.entries = entries at h hentry
    induction entries with
    | nil => cases hentry
    | cons head entries ih =>
      obtain ⟨hhead, htail⟩ := pairwise_cons.mp h
      rcases mem_cons.mp hentry with rfl | hentry
      · rw [takeWhile_cons_of_pos (by rw [htext]; simp [lt])]
        exact mem_cons_self
      · have hlt := hhead entry hentry text htext
        rw [takeWhile_cons_of_pos]
        · exact mem_cons_of_mem _ (ih htail hentry)
        · rw [not_text_lt hlt]
          rfl
  rw [← takeWhile_append_dropWhile (p := fun entry => !(string text).lt entry.1)
    (l := index.entries), flatMap_append] at hnodup
  exact fun hgreater => (nodup_append'.mp hnodup).2.2
    (mem_flatMap.mpr ⟨entry, hbefore, hr⟩) hgreater

end AnyKeys

end BTreeIndex

end VertexDB
