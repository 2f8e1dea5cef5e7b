import Mathlib.Data.List.Infix

/-!
# Logs of self-delimiting records

A log is a list of symbols, the concatenation of the encodings of its records. A decoder reads one
record off the front of a log or refuses. `FramedLog.scan` reads records until the decoder refuses
and drops what is left; it is the reader of an append-only log that ignores a damaged tail.
-/

namespace FramedLog

open List

variable {α β : Type*}

/-- Read at most `n` records off the front of a log, stopping where the decoder refuses. -/
def scanFuel (decode : List β → Option (α × List β)) : ℕ → List β → List α
  | 0, _ => []
  | n + 1, bs =>
    match decode bs with
    | none => []
    | some (a, rest) => a :: scanFuel decode n rest

/-- Read records off the front of a log until the decoder refuses. A record takes at least one
symbol, so the length of the log bounds the number of records. -/
def scan (decode : List β → Option (α × List β)) (bs : List β) : List α :=
  scanFuel decode bs.length bs

/-- The log of a list of records. -/
def encodeAll (encode : α → List β) (as : List α) : List β := as.flatMap encode

@[simp] theorem encodeAll_nil (encode : α → List β) : encodeAll encode [] = [] := rfl

@[simp] theorem encodeAll_cons (encode : α → List β) (a : α) (as : List α) :
    encodeAll encode (a :: as) = encode a ++ encodeAll encode as := rfl

@[simp] theorem encodeAll_append (encode : α → List β) (as as' : List α) :
    encodeAll encode (as ++ as') = encodeAll encode as ++ encodeAll encode as' := by
  simp [encodeAll]

/-- A record format: what is encoded is read back, nothing else is read, and no record is empty. -/
structure Format (encode : α → List β) (decode : List β → Option (α × List β)) : Prop where
  decode_encode : ∀ a rest, decode (encode a ++ rest) = some (a, rest)
  eq_encode_append : ∀ bs a rest, decode bs = some (a, rest) → bs = encode a ++ rest
  encode_ne_nil : ∀ a, encode a ≠ []

namespace Format

variable {encode : α → List β} {decode : List β → Option (α × List β)}

variable (F : Format encode decode)
include F

theorem length_encode_pos (a : α) : 0 < (encode a).length :=
  length_pos_iff.mpr (F.encode_ne_nil a)

theorem decode_nil : decode [] = none := by
  cases h : decode [] with
  | none => rfl
  | some p =>
    obtain ⟨a, rest⟩ := p
    have := F.eq_encode_append _ _ _ h
    simp [F.encode_ne_nil] at this

theorem decode_eq_none_iff (bs : List β) : decode bs = none ↔ ∀ a rest, bs ≠ encode a ++ rest := by
  constructor
  · rintro h a rest rfl
    simp [F.decode_encode] at h
  · intro h
    cases hd : decode bs with
    | none => rfl
    | some p => exact absurd (F.eq_encode_append _ _ _ hd) (h p.1 p.2)

theorem scanFuel_eq_iff (n : ℕ) (bs : List β) (hn : bs.length ≤ n) (as : List α) :
    scanFuel decode n bs = as ↔ ∃ rest, bs = encodeAll encode as ++ rest ∧ decode rest = none := by
  induction n generalizing bs as with
  | zero =>
    obtain rfl : bs = [] := length_eq_zero_iff.mp (Nat.le_zero.mp hn)
    cases as with
    | nil => simp [scanFuel, F.decode_nil]
    | cons a as => simp [scanFuel, F.encode_ne_nil]
  | succ n ih =>
    cases hd : decode bs with
    | none =>
      simp only [scanFuel, hd]
      constructor
      · rintro rfl
        exact ⟨bs, rfl, hd⟩
      · rintro ⟨rest, rfl, -⟩
        cases as with
        | nil => rfl
        | cons a as => simp [append_assoc, F.decode_encode] at hd
    | some p =>
      obtain ⟨a, tail⟩ := p
      have hbs := F.eq_encode_append _ _ _ hd
      have hlen : tail.length ≤ n := by
        have := F.length_encode_pos a
        rw [hbs, length_append] at hn
        omega
      simp only [scanFuel, hd]
      constructor
      · rintro rfl
        obtain ⟨rest, htail, hrest⟩ := (ih tail hlen _).mp rfl
        exact ⟨rest, by rw [hbs, encodeAll_cons, append_assoc, ← htail], hrest⟩
      · rintro ⟨rest, hb, hrest⟩
        cases as with
        | nil =>
          rw [encodeAll_nil, nil_append] at hb
          rw [← hb, hd] at hrest
          cases hrest
        | cons a' as =>
          rw [hb, encodeAll_cons, append_assoc, F.decode_encode] at hd
          obtain ⟨rfl, rfl⟩ := Prod.mk.inj (Option.some.inj hd)
          rw [(ih _ hlen as).mpr ⟨rest, rfl, hrest⟩]

/-- A scan returns `as` exactly when the log is the encodings of `as` followed by symbols that do
not begin with a record. -/
theorem scan_eq_iff (bs : List β) (as : List α) :
    scan decode bs = as ↔ ∃ rest, bs = encodeAll encode as ++ rest ∧ decode rest = none :=
  F.scanFuel_eq_iff bs.length bs le_rfl as

theorem scan_encodeAll_append (as : List α) (bs : List β) :
    scan decode (encodeAll encode as ++ bs) = as ++ scan decode bs := by
  obtain ⟨rest, hbs, hrest⟩ := (F.scan_eq_iff bs _).mp rfl
  refine (F.scan_eq_iff _ _).mpr ⟨rest, ?_, hrest⟩
  rw [encodeAll_append, append_assoc, ← hbs]

theorem eq_nil_of_encode_append_eq {a a' : α} {r : List β}
    (h : encode a ++ r = encode a') : r = [] := by
  have h₁ : decode (encode a ++ r) = some (a', []) := by
    rw [h]
    simpa using F.decode_encode a' []
  rw [F.decode_encode] at h₁
  exact (Prod.mk.inj (Option.some.inj h₁)).2

theorem decode_eq_none_of_prefix {t : List β} {a : α} (ht : t <+: encode a)
    (hne : t ≠ encode a) : decode t = none := by
  rw [F.decode_eq_none_iff]
  rintro a' rest rfl
  obtain ⟨s, hs⟩ := ht
  rw [append_assoc] at hs
  have h := F.eq_nil_of_encode_append_eq hs
  obtain ⟨rfl, rfl⟩ := append_eq_nil_iff.mp h
  exact hne (by simpa using hs)

theorem length_le_length_encodeAll (as : List α) : as.length ≤ (encodeAll encode as).length := by
  induction as with
  | nil => exact le_rfl
  | cons a as ih =>
    have := F.length_encode_pos a
    rw [encodeAll_cons, length_append, length_cons]
    omega

/-- The first `n` symbols of a log read as the first `k` records, where the record at position `i`
is among them exactly when the encodings up to it take at most `n` symbols. -/
theorem scan_take_encodeAll (as : List α) (n : ℕ) :
    ∃ k, scan decode ((encodeAll encode as).take n) = as.take k ∧
      ∀ i < as.length, i < k ↔ (encodeAll encode (as.take (i + 1))).length ≤ n := by
  induction as generalizing n with
  | nil =>
    refine ⟨0, ?_, fun i hi => absurd hi (Nat.not_lt_zero i)⟩
    exact (F.scan_eq_iff _ _).mpr ⟨[], by simp, F.decode_nil⟩
  | cons a as ih =>
    rw [encodeAll_cons]
    by_cases hlen : (encode a).length ≤ n
    · obtain ⟨k, hscan, hk⟩ := ih (n - (encode a).length)
      refine ⟨k + 1, ?_, fun i hi => ?_⟩
      · have hfirst := F.scan_encodeAll_append [a]
          ((encodeAll encode as).take (n - (encode a).length))
        rw [encodeAll_cons, encodeAll_nil, append_nil, hscan] at hfirst
        rw [take_append, take_of_length_le hlen, hfirst, take_succ_cons, singleton_append]
      · rw [take_succ_cons, encodeAll_cons, length_append]
        cases i with
        | zero => simpa using hlen
        | succ i =>
          have := hk i (Nat.lt_of_succ_lt_succ hi)
          omega
    · -- the cut falls inside the first record
      have hlt : n < (encode a).length := Nat.lt_of_not_le hlen
      have hcut : (encode a ++ encodeAll encode as).take n = (encode a).take n :=
        take_append_of_le_length hlt.le
      have hne : (encode a).take n ≠ encode a := fun h => by
        have := congrArg List.length h
        rw [length_take] at this
        omega
      have hnone := F.decode_eq_none_of_prefix (List.take_prefix n (encode a)) hne
      refine ⟨0, (F.scan_eq_iff _ _).mpr ⟨_, ?_, hcut ▸ hnone⟩, fun i _ => ?_⟩
      · rfl
      · rw [take_succ_cons, encodeAll_cons, length_append]
        omega

end Format

end FramedLog
