import VertexDB.Common.Value
import VertexDB.Lib.ByteReader

/-!
# The bytes of a page

The codec of `src/storage/page_row_store_io.cpp`: a page is the number of its rows and then the
rows, a row the number of its values and then the values, and a value a type tag and its payload.
Numbers are little-endian; a string is its size and its bytes.
-/

namespace VertexDB

open LittleEndian ByteReader List

/-- `Page`. -/
structure Page where
  id : ℕ
  bytes : List UInt8
  dirty : Bool
  deriving DecidableEq, Repr

/-- `static_cast<int>` of a `ColumnType`. -/
def ColumnType.toTag : ColumnType → ℕ
  | .int => 0
  | .double => 1
  | .string => 2

/-- The tag of NULL in a page. -/
def nullTag : ℕ := 255

/-- `kTruncated`. -/
def truncatedField : Error :=
  .runtimeError "truncated page payload while reading fixed-width field"

/-- The `switch` of `appendValue`: the bytes after the tag. -/
def Value.payloadBytes : Value → List UInt8
  | .int value => toBytes 8 value.toUInt64.toNat
  | .double value => toBytes 8 value.bits.toNat
  | .string text => toBytes 8 text.length ++ text
  | _ => []

/-- `appendValue`: the bytes it appends. A parameter or a composite has no type and throws. -/
def appendValue (value : Value) : Except Error (List UInt8) :=
  if value.isNull then pure (toBytes 1 nullTag)
  else do
    let type ← value.type
    return toBytes 1 type.toTag ++ value.payloadBytes

/-- `readValue`. -/
def readValue : Reader Error Value := do
  let typeTag ← fixed 1 truncatedField
  if typeTag = nullTag then return .null
  else if typeTag = ColumnType.toTag .int then
    return .int (UInt64.ofNat (← fixed 8 truncatedField)).toInt64
  else if typeTag = ColumnType.toTag .double then
    return .double ⟨UInt64.ofNat (← fixed 8 truncatedField)⟩
  else if typeTag = ColumnType.toTag .string then
    let size ← fixed 8 truncatedField
    return .string (← chunk size (.runtimeError "truncated page payload while reading string"))
  else
    throw (.runtimeError "invalid value type tag in page payload")

/-- The inner loop of `serializePage`. -/
def appendRow (row : Row) : Except Error (List UInt8) := do
  let values ← row.mapM appendValue
  return toBytes 8 row.length ++ values.flatten

/-- The inner loop of `decodePage`. -/
def readRow : Reader Error Row := do
  let columnCount ← fixed 8 truncatedField
  many readValue columnCount

namespace PageRowStore

/-- `PageRowStore::serializePage`. -/
def serializePage (pageId : ℕ) (rows : List Row) : Except Error Page := do
  let rowBytes ← rows.mapM appendRow
  return { id := pageId, bytes := toBytes 8 rows.length ++ rowBytes.flatten, dirty := true }

/-- `PageRowStore::decodePage`. -/
def decodePage (bytes : List UInt8) : Except Error (List Row) :=
  StateT.run' (do many readRow (← fixed 8 truncatedField)) bytes

end PageRowStore

/-- A value of a column type or NULL. The size of a string is a `std::size_t`. -/
def Value.Storable : Value → Prop
  | .null | .int _ | .double _ => True
  | .string text => text.length < 2 ^ 64
  | .parameter _ | .composite _ => False

/-- A row of storable values, with a size that is a `std::size_t`. -/
def Row.Storable (row : Row) : Prop := row.length < 2 ^ 64 ∧ ∀ value ∈ row, value.Storable

instance : DecidablePred Value.Storable
  | .null | .int _ | .double _ => isTrue trivial
  | .string text => inferInstanceAs (Decidable (text.length < 2 ^ 64))
  | .parameter _ | .composite _ => isFalse id

instance (row : Row) : Decidable (Row.Storable row) :=
  inferInstanceAs (Decidable (_ ∧ _))

/-- The bytes of a storable value. -/
def valueBytes : Value → List UInt8
  | .null => toBytes 1 nullTag
  | .int value => toBytes 1 (ColumnType.toTag .int) ++ toBytes 8 value.toUInt64.toNat
  | .double value => toBytes 1 (ColumnType.toTag .double) ++ toBytes 8 value.bits.toNat
  | .string text => toBytes 1 (ColumnType.toTag .string) ++ (toBytes 8 text.length ++ text)
  | .parameter _ | .composite _ => []

/-- The bytes of a storable row. -/
def rowBytes (row : Row) : List UInt8 := toBytes 8 row.length ++ row.flatMap valueBytes

/-- The bytes of a page of storable rows. -/
def pageBytes (rows : List Row) : List UInt8 := toBytes 8 rows.length ++ rows.flatMap rowBytes

section RoundTrip

theorem storable_nil : Row.Storable [] := ⟨by decide, by simp⟩

theorem appendValue_eq {value : Value} (h : value.Storable) :
    appendValue value = .ok (valueBytes value) := by
  cases value with
  | null | int | double | string => rfl
  | parameter | composite => exact h.elim

theorem whole_readValue {value : Value} (h : value.Storable) :
    Whole readValue (valueBytes value) value := by
  cases value with
  | null => exact (whole_fixed _ (by decide)).bind (whole_pure _)
  | int value =>
    have hread := (whole_fixed truncatedField (w := 8) (n := value.toUInt64.toNat)
      value.toUInt64.toNat_lt).map fun n => Value.int (UInt64.ofNat n).toInt64
    simp only [UInt64.ofNat_toNat, Int64.toInt64_toUInt64] at hread
    exact (whole_fixed _ (by decide)).bind hread
  | double value =>
    have hread := (whole_fixed truncatedField (w := 8) (n := value.bits.toNat)
      value.bits.toNat_lt).map fun n => Value.double ⟨UInt64.ofNat n⟩
    simp only [UInt64.ofNat_toNat] at hread
    exact (whole_fixed _ (by decide)).bind hread
  | string text =>
    have hsize := whole_fixed truncatedField (w := 8) (n := text.length) h
    have htext := (whole_chunk text
      (Error.runtimeError "truncated page payload while reading string")).map Value.string
    exact (whole_fixed _ (by decide)).bind (hsize.bind htext)
  | parameter | composite => exact h.elim

theorem mapM_ok {α β : Type} {f : α → Except Error β} {g : α → β} {as : List α}
    (h : ∀ a ∈ as, f a = .ok (g a)) : as.mapM f = .ok (as.map g) := by
  induction as with
  | nil => rfl
  | cons a as ih =>
    rw [mapM_cons, h a mem_cons_self, ih fun b hb => h b (mem_cons_of_mem a hb)]
    rfl

theorem appendRow_eq {row : Row} (h : Row.Storable row) : appendRow row = .ok (rowBytes row) := by
  rw [appendRow, mapM_ok fun value hvalue => appendValue_eq (h.2 value hvalue), rowBytes,
    flatMap_def]
  rfl

theorem whole_readRow {row : Row} (h : Row.Storable row) : Whole readRow (rowBytes row) row := by
  have hvalues : Whole (many readValue row.length) (row.flatMap valueBytes) (row.map id) :=
    whole_many fun value hvalue => whole_readValue (h.2 value hvalue)
  rw [map_id] at hvalues
  exact (whole_fixed truncatedField h.1).bind hvalues

variable {rows : List Row}

theorem PageRowStore.serializePage_eq (pageId : ℕ) (h : ∀ row ∈ rows, Row.Storable row) :
    serializePage pageId rows = .ok { id := pageId, bytes := pageBytes rows, dirty := true } := by
  rw [serializePage, mapM_ok fun row hrow => appendRow_eq (h row hrow), pageBytes, flatMap_def]
  rfl

section Storable

variable (hlen : rows.length < 2 ^ 64) (h : ∀ row ∈ rows, Row.Storable row)
include hlen h

theorem whole_readRows :
    Whole (do many readRow (← fixed 8 truncatedField)) (pageBytes rows) rows := by
  have hrows := whole_counted (f := id) truncatedField hlen fun row hrow =>
    whole_readRow (h row hrow)
  rwa [map_id] at hrows

theorem PageRowStore.decodePage_pageBytes : decodePage (pageBytes rows) = .ok rows := by
  have hrun := (whole_readRows hlen h).reads []
  rw [append_nil] at hrun
  rw [decodePage, StateT.run']
  exact congrArg (Except.map Prod.fst) hrun

theorem PageRowStore.decodePage_of_prefix {bytes : List UInt8} (hcut : bytes <+: pageBytes rows)
    (hne : bytes ≠ pageBytes rows) : ∃ error, decodePage bytes = .error error := by
  obtain ⟨error, herror⟩ := (whole_readRows hlen h).refuses bytes hcut hne
  refine ⟨error, ?_⟩
  rw [decodePage, StateT.run']
  exact congrArg (Except.map Prod.fst) herror

end Storable

/-- A page of storable rows is written, its bytes are read back as the rows, and no strict prefix of
them is read at all. -/
theorem PageRowStore.decodePage_serializePage (pageId : ℕ) (rows : List Row)
    (hlen : rows.length < 2 ^ 64) (h : ∀ row ∈ rows, Row.Storable row) :
    ∃ page, serializePage pageId rows = .ok page ∧ decodePage page.bytes = .ok rows ∧
      ∀ bytes, bytes <+: page.bytes → bytes ≠ page.bytes →
        ∃ error, decodePage bytes = .error error :=
  ⟨_, serializePage_eq pageId h, decodePage_pageBytes hlen h,
    fun _ hcut hne => decodePage_of_prefix hlen h hcut hne⟩

/-- A page with a row of every kind of value and a tombstone. -/
theorem PageRowStore.decodePage_serializePage_mixed :
    let rows : List Row := [[.null, .int (-1), .double ⟨0⟩, .string [0, 255]], []]
    (rows.length < 2 ^ 64 ∧ ∀ row ∈ rows, Row.Storable row) ∧
      ∃ page, serializePage 1 rows = .ok page ∧ decodePage page.bytes = .ok rows ∧
        ∀ bytes, bytes <+: page.bytes → bytes ≠ page.bytes →
          ∃ error, decodePage bytes = .error error := by
  intro rows
  have hlen : rows.length < 2 ^ 64 := by decide
  have hrows : ∀ row ∈ rows, Row.Storable row := by decide
  exact ⟨⟨hlen, hrows⟩, decodePage_serializePage 1 rows hlen hrows⟩

end RoundTrip

end VertexDB
