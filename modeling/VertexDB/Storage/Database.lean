import VertexDB.Storage.Table

/-!
# Databases

The catalog of `src/storage/database.cpp`. Tables are objects that statements hold on to, so the
model has a list of all table objects and the catalog maps names to places in it.
-/

namespace VertexDB

/-- `Database`: the table objects, and the names of those that are in the catalog. -/
structure Database where
  objects : List Table := []
  catalog : Std.ExtTreeMap String ℕ := ∅

namespace Database

/-- `Database::table`: the object of a name. -/
def table (db : Database) (name : String) : Option (ℕ × Table) := do
  let id ← db.catalog[name]?
  let t ← db.objects[id]?
  return (id, t)

/-- `Database::tables`: the objects in the order of their names. -/
def tables (db : Database) : List (ℕ × Table) :=
  db.catalog.toList.filterMap fun entry => (db.objects[entry.2]?).map (entry.2, ·)

/-- The database after a call on one of its objects. -/
def setObject (db : Database) (id : ℕ) (t : Table) : Database :=
  { db with objects := db.objects.set id t }

variable {db : Database} {id : ℕ} {t : Table} {name : String}

theorem table_eq_some :
    db.table name = some (id, t) ↔ db.catalog[name]? = some id ∧ db.objects[id]? = some t := by
  simp only [table, bind, Option.bind_eq_some_iff, pure, Option.some.injEq, Prod.mk.injEq]
  constructor
  · rintro ⟨id', hid, t', ht, rfl, rfl⟩
    exact ⟨hid, ht⟩
  · rintro ⟨hid, ht⟩
    exact ⟨id, hid, t, ht, rfl, rfl⟩

theorem getElem?_of_table (h : db.table name = some (id, t)) :
    db.objects[id]? = some t :=
  (table_eq_some.mp h).2

theorem table_unique {id' : ℕ} {t' : Table} (h : db.table name = some (id, t))
    (h' : db.table name = some (id', t')) : id = id' ∧ t = t' :=
  Prod.mk.inj (Option.mem_unique h h')

theorem mem_tables :
    (id, t) ∈ db.tables ↔ (∃ name : String, db.catalog[name]? = some id) ∧
      db.objects[id]? = some t := by
  simp only [tables, List.mem_filterMap, Option.map_eq_some_iff, Prod.mk.injEq, Prod.exists,
    Std.ExtTreeMap.mem_toList_iff_getElem?_eq_some]
  constructor
  · rintro ⟨name, id', hname, t', ht, rfl, rfl⟩
    exact ⟨⟨name, hname⟩, ht⟩
  · rintro ⟨⟨name, hname⟩, ht⟩
    exact ⟨name, id, hname, t, ht, rfl, rfl⟩

theorem mem_tables_of_table (h : db.table name = some (id, t)) :
    (id, t) ∈ db.tables :=
  mem_tables.mpr ⟨⟨name, (table_eq_some.mp h).1⟩, getElem?_of_table h⟩

@[simp] theorem catalog_setObject (db : Database) (id : ℕ) (t : Table) :
    (db.setObject id t).catalog = db.catalog := rfl

theorem getElem?_setObject {t₀ : Table} (h : db.objects[id]? = some t₀) (t : Table) (id' : ℕ) :
    (db.setObject id t).objects[id']? = if id = id' then some t else db.objects[id']? := by
  have hid : id < db.objects.length := (List.getElem?_eq_some_iff.mp h).1
  rw [setObject, List.getElem?_set]
  split_ifs <;> rfl

theorem setObject_self (h : db.objects[id]? = some t) :
    db.setObject id t = db := by
  rw [setObject]
  congr 1
  refine List.ext_getElem? fun i => ?_
  have hget := getElem?_setObject h t i
  rw [setObject] at hget
  rw [hget]
  split_ifs with hi
  · rw [← hi, h]
  · rfl

end Database

end VertexDB
