import VertexDB.Lib.LittleEndian
import Mathlib.Data.List.Basic
import Mathlib.Data.List.Infix
import Mathlib.Logic.Function.Iterate
import Mathlib.Tactic.Common

/-!
# Readers of byte strings

A reader takes what it reads off the front of a byte string and may fail. `ByteReader.Reads r bs a`
says that `r` reads exactly the bytes `bs` as `a`, whatever follows them; `ByteReader.Whole r bs a`
says in addition that `r` fails on every strict prefix of `bs`. Readers compose along both as
writers compose along `++`.

A reader that calls itself is `ByteReader.recursive step`: the step takes the reader for the inner
calls. A step that takes a byte before each of them is `ByteReader.Guarded`, and then the recursion
satisfies its own equation.
-/

namespace ByteReader

open List Function

variable {ε α β γ : Type}

/-- A computation that reads from the front of a byte string. -/
abbrev Reader (ε : Type) := StateT (List UInt8) (Except ε)

/-- Read an unsigned integer of `w` bytes. -/
def fixed (w : ℕ) (error : ε) : Reader ε ℕ := fun bs =>
  if bs.length < w then .error error else .ok (LittleEndian.ofBytes (bs.take w), bs.drop w)

/-- Read `n` bytes. -/
def chunk (n : ℕ) (error : ε) : Reader ε (List UInt8) := fun bs =>
  if bs.length < n then .error error else .ok (bs.take n, bs.drop n)

/-- Read `n` times. -/
def many (r : Reader ε α) : ℕ → Reader ε (List α)
  | 0 => pure []
  | n + 1 => do
    let a ← r
    let as ← many r n
    return a :: as

/-- Read a count of eight bytes, then as many items. -/
def counted (error : ε) (r : Reader ε α) : Reader ε (List α) := do many r (← fixed 8 error)

/-- Read a size of eight bytes, then as many bytes. -/
def sized (error : ε) : Reader ε (List UInt8) := do chunk (← fixed 8 error) error

/-- Take no byte; fail when the computation does. -/
def attempt (x : Except ε α) : Reader ε α := fun bs => x.map (·, bs)

/-- The reader reads exactly the bytes `bs`, as `a`. -/
def Reads (r : Reader ε α) (bs : List UInt8) (a : α) : Prop :=
  ∀ rest, r (bs ++ rest) = .ok (a, rest)

/-- The reader reads exactly the bytes `bs`, as `a`, and fails when they are cut short. -/
structure Whole (r : Reader ε α) (bs : List UInt8) (a : α) : Prop where
  reads : Reads r bs a
  refuses : ∀ t, t <+: bs → t ≠ bs → ∃ error, r t = .error error

variable {f : α → Reader ε β}

section Rules

variable {r : Reader ε α} {as bs : List UInt8} {a : α} {b : β}

theorem bind_apply (r : Reader ε α) (f : α → Reader ε β) (bs : List UInt8) :
    (r >>= f) bs = r bs >>= fun p => f p.1 p.2 := rfl

theorem bind_of_ok {rest : List UInt8} (h : r bs = .ok (a, rest)) :
    (r >>= f) bs = f a rest := by
  rw [bind_apply, h]
  rfl

theorem bind_of_error {error : ε} (h : r bs = .error error) :
    (r >>= f) bs = .error error := by
  rw [bind_apply, h]
  rfl

theorem whole_pure (a : α) : Whole (pure a : Reader ε α) [] a where
  reads := fun _ => rfl
  refuses := fun _ ht hne => absurd (prefix_nil.mp ht) hne

theorem whole_attempt {x : Except ε α} (h : x = .ok a) : Whole (attempt x) [] a := by
  subst h
  exact whole_pure a

/-- What is cut off a sequence is cut off its first part or, after the whole first part, off its
second. -/
theorem Whole.bind (hr : Whole r as a) (hf : Whole (f a) bs b) :
    Whole (r >>= f) (as ++ bs) b where
  reads := fun rest => by
    rw [append_assoc, bind_of_ok (hr.reads (bs ++ rest))]
    exact hf.reads rest
  refuses := fun t ht hne => by
    rcases prefix_or_prefix_of_prefix ht (prefix_append as bs) with hlt | ⟨q, rfl⟩
    · by_cases htas : t = as
      · subst htas
        have hbs : [] ≠ bs := fun h => hne (by rw [← h, append_nil])
        obtain ⟨error, herror⟩ := hf.refuses [] nil_prefix hbs
        have hread := hr.reads []
        rw [append_nil] at hread
        exact ⟨error, by rw [bind_of_ok hread, herror]⟩
      · obtain ⟨error, herror⟩ := hr.refuses t hlt htas
        exact ⟨error, bind_of_error herror⟩
    · have hq : q <+: bs := (prefix_append_right_inj as).mp ht
      obtain ⟨error, herror⟩ := hf.refuses q hq fun h => hne (by rw [h])
      exact ⟨error, by rw [bind_of_ok (hr.reads q), herror]⟩

theorem Whole.bind_nil (hr : Whole r as a) (hf : Whole (f a) [] b) :
    Whole (r >>= f) as b := by
  have h := hr.bind hf
  rwa [append_nil] at h

theorem Whole.map (f : α → β) (hr : Whole r as a) : Whole (do return f (← r)) as (f a) :=
  hr.bind_nil (f := fun a => pure (f a)) (whole_pure (f a))

/-- A reader that only counts the bytes left is whole on the bytes it takes. -/
theorem whole_of_length {n : ℕ} {g : List UInt8 → α} {error : ε} (hlen : bs.length = n)
    (hr : ∀ t, r t = if t.length < n then .error error else .ok (g (t.take n), t.drop n)) :
    Whole r bs (g bs) where
  reads := fun rest => by
    have hnot : ¬ (bs ++ rest).length < n := by
      rw [length_append]
      omega
    rw [hr, if_neg hnot, take_left' hlen, drop_left' hlen]
  refuses := fun t ht hne => by
    have hlt : t.length < n := hlen ▸ lt_of_le_of_ne ht.length_le fun h => hne (ht.eq_of_length h)
    exact ⟨error, by rw [hr, if_pos hlt]⟩

theorem whole_fixed {w n : ℕ} (error : ε) (hn : n < 256 ^ w) :
    Whole (fixed w error) (LittleEndian.toBytes w n) n := by
  have h : Whole (fixed w error) (LittleEndian.toBytes w n)
      (LittleEndian.ofBytes (LittleEndian.toBytes w n)) :=
    whole_of_length (LittleEndian.length_toBytes w n) fun _ => rfl
  rwa [LittleEndian.ofBytes_toBytes w n hn] at h

theorem whole_chunk (bs : List UInt8) (error : ε) : Whole (chunk bs.length error) bs bs :=
  whole_of_length (g := id) rfl fun _ => rfl

theorem whole_many {write : γ → List UInt8} {f : γ → α} {items : List γ}
    (h : ∀ item ∈ items, Whole r (write item) (f item)) :
    Whole (many r items.length) (items.flatMap write) (items.map f) := by
  induction items with
  | nil => exact whole_pure []
  | cons item items ih =>
    have hhead := h item mem_cons_self
    have htail := ih fun item' hmem => h item' (mem_cons_of_mem item hmem)
    exact hhead.bind (htail.map (f item :: ·))

theorem whole_counted {write : γ → List UInt8} {f : γ → α} {items : List γ} (error : ε)
    (hlen : items.length < 2 ^ 64) (h : ∀ item ∈ items, Whole r (write item) (f item)) :
    Whole (counted error r) (LittleEndian.toBytes 8 items.length ++ items.flatMap write)
      (items.map f) :=
  (whole_fixed error hlen).bind (whole_many h)

theorem whole_sized (bs : List UInt8) (error : ε) (hlen : bs.length < 2 ^ 64) :
    Whole (sized error) (LittleEndian.toBytes 8 bs.length ++ bs) bs :=
  (whole_fixed error hlen).bind (whole_chunk bs error)

end Rules

section Recursion

/-- The reader does not give back more bytes than it got. -/
def Shrinks (r : Reader ε α) : Prop := ∀ bs a rest, r bs = .ok (a, rest) → rest.length ≤ bs.length

variable {r r' : Reader ε α} {bs : List UInt8}

theorem shrinks_pure (a : α) : Shrinks (pure a : Reader ε α) := fun bs a' rest h => by
  obtain ⟨-, rfl⟩ := Prod.mk.inj (Except.ok.inj h)
  exact le_rfl

theorem shrinks_throw (error : ε) : Shrinks (throw error : Reader ε α) := by
  rintro bs a rest ⟨⟩

theorem shrinks_attempt (x : Except ε α) : Shrinks (attempt x) := by
  cases x with
  | error error => exact shrinks_throw error
  | ok a => exact shrinks_pure a

theorem Shrinks.bind (hr : Shrinks r) (hf : ∀ a, Shrinks (f a)) :
    Shrinks (r >>= f) := fun bs b rest h => by
  cases hrun : r bs with
  | error error => rw [bind_of_error hrun] at h; cases h
  | ok p =>
    rw [bind_of_ok hrun] at h
    exact (hf p.1 p.2 b rest h).trans (hr bs p.1 p.2 hrun)

/-- A reader that only counts the bytes left takes as many as it asks for. -/
private theorem length_of_ok {n : ℕ} {g : List UInt8 → α} {error : ε} {a : α} {rest : List UInt8}
    (h : (if bs.length < n then .error error else .ok (g (bs.take n), bs.drop n)) =
      (.ok (a, rest) : Except ε (α × List UInt8))) : rest.length + n = bs.length := by
  split_ifs at h with hlt
  obtain ⟨-, rfl⟩ := Prod.mk.inj (Except.ok.inj h)
  rw [length_drop]
  omega

theorem shrinks_fixed (w : ℕ) (error : ε) : Shrinks (fixed w error) := fun bs a rest h => by
  have := length_of_ok h
  omega

theorem shrinks_chunk (n : ℕ) (error : ε) : Shrinks (chunk n error) := fun bs a rest h => by
  have := length_of_ok (g := id) h
  omega

theorem Shrinks.many (hr : Shrinks r) (n : ℕ) : Shrinks (many r n) := by
  induction n with
  | zero => exact shrinks_pure []
  | succ n ih => exact hr.bind fun a => ih.bind fun as => shrinks_pure (a :: as)

/-- Two loops agree on a byte string when their bodies agree on every string that is not longer. -/
theorem many_congr (hr : Shrinks r) (h : ∀ t, t.length ≤ bs.length → r t = r' t) (n : ℕ) :
    many r n bs = many r' n bs := by
  induction n generalizing bs with
  | zero => rfl
  | succ n ih =>
    rw [many, many]
    cases hrun : r bs with
    | error error =>
      have hrun' : r' bs = .error error := h bs le_rfl ▸ hrun
      rw [bind_of_error hrun, bind_of_error hrun']
    | ok p =>
      have hrun' : r' bs = .ok (p.1, p.2) := h bs le_rfl ▸ hrun
      have hle := hr bs p.1 p.2 hrun
      have hmany : many r n p.2 = many r' n p.2 := ih fun t ht => h t (ht.trans hle)
      rw [bind_of_ok hrun, bind_of_ok hrun', bind_apply, bind_apply, hmany]

/-- After a field that is not empty two continuations only have to agree on shorter strings. -/
theorem fixed_bind_congr {w : ℕ} (hw : 0 < w) (error : ε) {f f' : ℕ → Reader ε α}
    (h : ∀ n t, t.length < bs.length → f n t = f' n t) :
    (fixed w error >>= f) bs = (fixed w error >>= f') bs := by
  cases hrun : fixed w error bs with
  | error e => rw [bind_of_error hrun, bind_of_error hrun]
  | ok p =>
    have hlen := length_of_ok hrun
    rw [bind_of_ok hrun, bind_of_ok hrun, h p.1 p.2 (by omega)]

theorem counted_congr (error : ε) (hr : Shrinks r) (h : ∀ t, t.length ≤ bs.length → r t = r' t) :
    counted error r bs = counted error r' bs :=
  fixed_bind_congr (by decide) error fun n _ ht =>
    many_congr hr (fun t' ht' => h t' (ht'.trans ht.le)) n

theorem Shrinks.counted (hr : Shrinks r) (error : ε) : Shrinks (counted error r) :=
  (shrinks_fixed 8 error).bind hr.many

theorem shrinks_sized (error : ε) : Shrinks (sized error) :=
  (shrinks_fixed 8 error).bind fun size => shrinks_chunk size error

/-- The reader that calls itself where the step calls its argument. Each level takes a byte, so the
number of bytes bounds the depth. -/
def recursive (step : Reader ε α → Reader ε α) (error : ε) : Reader ε α := fun bs =>
  step^[bs.length + 1] (throw error) bs

/-- The step takes a byte before it calls its argument. -/
structure Guarded (step : Reader ε α → Reader ε α) : Prop where
  shrinks : ∀ r, Shrinks r → Shrinks (step r)
  agree : ∀ r r' bs, Shrinks r → Shrinks r' → (∀ t, t.length < bs.length → r t = r' t) →
    step r bs = step r' bs

variable {step : Reader ε α → Reader ε α}

theorem Guarded.shrinks_iterate (h : Guarded step) (error : ε) (n : ℕ) :
    Shrinks (step^[n] (throw error)) := by
  induction n with
  | zero => exact shrinks_throw error
  | succ n ih =>
    rw [iterate_succ_apply']
    exact h.shrinks _ ih

/-- Further levels than there are bytes change nothing. -/
theorem Guarded.iterate_eq (h : Guarded step) (error : ε) {m n : ℕ} (hm : bs.length < m)
    (hn : bs.length < n) : step^[m] (throw error) bs = step^[n] (throw error) bs := by
  induction m generalizing n bs with
  | zero => exact absurd hm (Nat.not_lt_zero _)
  | succ m ih =>
    cases n with
    | zero => exact absurd hn (Nat.not_lt_zero _)
    | succ n =>
      rw [iterate_succ_apply', iterate_succ_apply']
      refine h.agree _ _ bs (h.shrinks_iterate error m) (h.shrinks_iterate error n) fun t ht => ?_
      exact ih (by omega) (by omega)

theorem Guarded.shrinks_recursive (h : Guarded step) (error : ε) :
    Shrinks (recursive step error) := fun bs =>
  h.shrinks_iterate error (bs.length + 1) bs

theorem recursive_eq (h : Guarded step) (error : ε) :
    recursive step error = step (recursive step error) := by
  funext bs
  rw [recursive, iterate_succ_apply']
  refine h.agree _ _ bs (h.shrinks_iterate error _) (h.shrinks_recursive error) fun t ht => ?_
  exact h.iterate_eq error ht (Nat.lt_succ_self _)

end Recursion

end ByteReader
