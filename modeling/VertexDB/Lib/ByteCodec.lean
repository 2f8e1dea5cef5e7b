import VertexDB.Lib.ByteReader

/-!
# Writers of byte strings and the readers that mirror them

A writer gives the bytes it appends or fails. `ByteCodec.Mirrors w r a` says that the reader `r`
takes whatever `w` wrote for `a` and fails when it is cut short; a writer is put together with `++`
and a reader with `>>=`, and `ByteCodec.Mirrors.bind` follows both. `a` need not be the value that
was written: a writer may leave out a field, which then reads as its default.
-/

namespace ByteCodec

open ByteReader LittleEndian

variable {ε α β γ : Type}

/-- The bytes a call appends, or what it throws. -/
def Writer (ε : Type) := Except ε (List UInt8)

instance : Append (Writer ε) where
  append w w' := Except.bind w fun bs => Except.map (bs ++ ·) w'

/-- Append the given bytes. -/
def write (bs : List UInt8) : Writer ε := .ok bs

/-- Append an unsigned integer of `w` bytes. -/
def writeFixed (w n : ℕ) : Writer ε := write (toBytes w n)

/-- Append a size of eight bytes and the bytes. -/
def writeSized (bs : List UInt8) : Writer ε := write (toBytes 8 bs.length ++ bs)

/-- Append one item after the other. -/
def writeAll (writeItem : γ → Writer ε) : List γ → Writer ε
  | [] => write []
  | item :: items => writeItem item ++ writeAll writeItem items

/-- Append a count of eight bytes and the items. -/
def writeCounted (writeItem : γ → Writer ε) (items : List γ) : Writer ε :=
  writeFixed 8 items.length ++ writeAll writeItem items

variable {writeItem : γ → Writer ε}

section Succeeds

/-- The call returns. -/
def Succeeds (w : Writer ε) : Prop := ∃ bs, w = .ok bs

variable {w w' : Writer ε} {bs : List UInt8}

theorem append_eq_ok : w ++ w' = .ok bs ↔ ∃ as as', w = .ok as ∧ w' = .ok as' ∧ as ++ as' = bs := by
  constructor
  · intro h
    cases w with
    | error error => cases h
    | ok as =>
      cases w' with
      | error error => cases h
      | ok as' => exact ⟨as, as', rfl, rfl, Except.ok.inj h⟩
  · rintro ⟨as, as', rfl, rfl, rfl⟩
    rfl

@[simp] theorem succeeds_write (bs : List UInt8) : Succeeds (write bs : Writer ε) := ⟨bs, rfl⟩

@[simp] theorem succeeds_fixed (w n : ℕ) : Succeeds (writeFixed w n : Writer ε) := ⟨_, rfl⟩

@[simp] theorem succeeds_sized (bs : List UInt8) : Succeeds (writeSized bs : Writer ε) := ⟨_, rfl⟩

@[simp] theorem succeeds_append : Succeeds (w ++ w') ↔ Succeeds w ∧ Succeeds w' := by
  constructor
  · rintro ⟨bs, h⟩
    obtain ⟨as, as', h₁, h₂, -⟩ := append_eq_ok.mp h
    exact ⟨⟨as, h₁⟩, ⟨as', h₂⟩⟩
  · rintro ⟨⟨as, h₁⟩, ⟨as', h₂⟩⟩
    exact ⟨as ++ as', append_eq_ok.mpr ⟨as, as', h₁, h₂, rfl⟩⟩

@[simp] theorem succeeds_all {items : List γ} :
    Succeeds (writeAll writeItem items) ↔ ∀ item ∈ items, Succeeds (writeItem item) := by
  induction items with
  | nil => simp [writeAll]
  | cons item items ih => simp [writeAll, ih]

@[simp] theorem succeeds_counted {items : List γ} :
    Succeeds (writeCounted writeItem items) ↔ ∀ item ∈ items, Succeeds (writeItem item) := by
  simp [writeCounted]

end Succeeds

section Mirrors

/-- The reader takes what the call wrote as `a`, and fails on a strict prefix of it. -/
def Mirrors (w : Writer ε) (r : Reader ε α) (a : α) : Prop := ∀ bs, w = .ok bs → Whole r bs a

variable {w w' : Writer ε} {r : Reader ε α} {a : α} {b : β}

theorem mirrors_write {bs : List UInt8} (h : Whole r bs a) : Mirrors (write bs) r a := by
  intro bs' hbs
  obtain rfl : bs = bs' := Except.ok.inj hbs
  exact h

theorem mirrors_pure (a : α) : Mirrors (write [] : Writer ε) (pure a) a :=
  mirrors_write (whole_pure a)

theorem mirrors_fixed {w n : ℕ} (error : ε) (hn : n < 256 ^ w) :
    Mirrors (writeFixed w n) (fixed w error) n :=
  mirrors_write (whole_fixed error hn)

theorem mirrors_sized {bs : List UInt8} (error : ε) (hlen : bs.length < 2 ^ 64) :
    Mirrors (writeSized bs) (sized error) bs :=
  mirrors_write (whole_sized bs error hlen)

theorem Mirrors.bind {f : α → Reader ε β} (h : Mirrors w r a) (h' : Mirrors w' (f a) b) :
    Mirrors (w ++ w') (r >>= f) b := by
  intro bs hbs
  obtain ⟨as, as', hw, hw', rfl⟩ := append_eq_ok.mp hbs
  exact (h as hw).bind (h' as' hw')

theorem Mirrors.bind_nil {f : α → Reader ε β} (h : Mirrors w r a) (h' : Whole (f a) [] b) :
    Mirrors w (r >>= f) b :=
  fun bs hbs => (h bs hbs).bind_nil h'

theorem Mirrors.map (f : α → β) (h : Mirrors w r a) : Mirrors w (do return f (← r)) (f a) :=
  fun bs hbs => (h bs hbs).map f

theorem mirrors_all {f : γ → α} {items : List γ}
    (h : ∀ item ∈ items, Mirrors (writeItem item) r (f item)) :
    Mirrors (writeAll writeItem items) (many r items.length) (items.map f) := by
  induction items with
  | nil => exact mirrors_pure []
  | cons item items ih =>
    have hhead := h item List.mem_cons_self
    have htail := ih fun item' hmem => h item' (List.mem_cons_of_mem item hmem)
    exact hhead.bind (htail.map (f item :: ·))

theorem mirrors_counted {f : γ → α} {items : List γ} (error : ε) (hlen : items.length < 2 ^ 64)
    (h : ∀ item ∈ items, Mirrors (writeItem item) r (f item)) :
    Mirrors (writeCounted writeItem items) (counted error r) (items.map f) :=
  (mirrors_fixed error hlen).bind (mirrors_all h)

end Mirrors

end ByteCodec
