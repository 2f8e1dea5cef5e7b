import VertexDB.Execution.IndexProbes
import Mathlib.Data.Rat.Defs

/-!
# What a planned scan returns

Whether the rows that `collectVisibleEntries` returns for the plan of `planSelect` are the visible
rows that satisfy the predicate, when one conjunct is served from an index and the others are the
residual. The residual filters the candidates of every path but the union: there the executor takes
it for the arms of an OR that no index serves, and adds the rows that satisfy it.
-/

namespace VertexDB

open Planner BTreeIndex Option IndexManager List

section Scan

variable {σ C : Type} [CostArith C] {runtime : PredicateRuntime σ} {t : Table} {scope : String}
  {snapshot : ReadSnapshot} {m : TransactionManager} {predicate : Predicate σ} {r : ℕ}

/-- The scan succeeds, and the row ids it returns are those of the visible rows that satisfy the
predicate. -/
def Exact (runtime : PredicateRuntime σ) (t : Table) (scope : String) (snapshot : ReadSnapshot)
    (m : TransactionManager) (predicate : Predicate σ) (result : Except Error (List (ℕ × Row))) :
    Prop :=
  ∃ entries, result = .ok entries ∧ ∀ r, r ∈ entries.map Prod.fst ↔
    ∃ row, t.versions.read r snapshot m = some row ∧
      matchesPredicate runtime t scope row predicate = .ok true

/-- The predicate evaluates on every visible row. -/
def Evaluable (runtime : PredicateRuntime σ) (t : Table) (scope : String) (snapshot : ReadSnapshot)
    (m : TransactionManager) (predicate : Predicate σ) : Prop :=
  ∀ r row, t.versions.read r snapshot m = some row →
    ∃ value, matchesPredicate runtime t scope row predicate = .ok value

/-- Whether a predicate evaluates is decided on the visible entries. -/
theorem evaluable_of_visibleEntries (h : ∀ entry ∈ t.versions.visibleEntries snapshot m,
    (matchesPredicate runtime t scope entry.2 predicate).isOk = true) :
    Evaluable runtime t scope snapshot m predicate := by
  intro r row hread
  have hok := h (r, row) ((t.versions.mem_visibleEntries snapshot m r row).mpr hread)
  cases hvalue : matchesPredicate runtime t scope row predicate with
  | error e =>
    rw [hvalue] at hok
    cases hok
  | ok b => exact ⟨b, rfl⟩

theorem mem_map_fst {entries : List (ℕ × Row)} :
    r ∈ entries.map Prod.fst ↔ ∃ row, (r, row) ∈ entries := by
  simp

theorem mem_filterEntries {eval : Row → Except Error Bool} {entries kept : List (ℕ × Row)}
    (h : filterEntries eval entries = .ok kept) (entry : ℕ × Row) :
    entry ∈ kept ↔ entry ∈ entries ∧ eval entry.2 = .ok true := by
  obtain ⟨hall, rfl⟩ := filterEntries_eq_ok.mp h
  rw [mem_filter, and_congr_right_iff]
  intro hentry
  obtain ⟨keep, hkeep⟩ := hall entry hentry
  rw [hkeep]
  cases keep <;> simp [Except.toOption]

theorem exists_filterEntries (eval : Row → Except Error Bool) (entries : List (ℕ × Row))
    (h : ∀ entry ∈ entries, ∃ keep, eval entry.2 = .ok keep) :
    ∃ kept, filterEntries eval entries = .ok kept ∧
      ∀ entry, entry ∈ kept ↔ entry ∈ entries ∧ eval entry.2 = .ok true :=
  have hok := filterEntries_eq_ok.mpr ⟨h, rfl⟩
  ⟨_, hok, mem_filterEntries hok⟩

variable {rowIds : List ℕ}

/-- The candidates of an index, filtered by the residual, are the rows that satisfy the predicate
when no such row is missing and the residual decides the predicate on the candidates. -/
theorem exact_applyResidual (heval : Evaluable runtime t scope snapshot m predicate)
    {conjuncts : List (Predicate σ)}
    (hres : ∀ r row, t.versions.read r snapshot m = some row → r ∈ rowIds →
      evalAll (matchesPredicate runtime t scope row) conjuncts =
        matchesPredicate runtime t scope row predicate)
    (hcandidate : ∀ r row, t.versions.read r snapshot m = some row →
      matchesPredicate runtime t scope row predicate = .ok true → r ∈ rowIds) :
    Exact runtime t scope snapshot m predicate
      (applyResidual (fun p row => matchesPredicate runtime t scope row p)
        (buildAndTree conjuncts) (t.versions.visibleEntriesById rowIds snapshot m)) := by
  have hmem := t.versions.mem_visibleEntriesById rowIds snapshot m
  rcases htree : buildAndTree conjuncts with _ | residual
  · -- no residual: every candidate satisfies the predicate
    obtain rfl : conjuncts = [] := by
      cases conjuncts with
      | nil => rfl
      | cons => cases htree
    refine ⟨_, rfl, fun r => ?_⟩
    rw [mem_map_fst]
    refine exists_congr fun row => ?_
    rw [hmem]
    constructor
    · rintro ⟨hr, hread⟩
      exact ⟨hread, (hres r row hread hr).symm⟩
    · rintro ⟨hread, htrue⟩
      exact ⟨hcandidate r row hread htrue, hread⟩
  · have htrees : ∀ r row, t.versions.read r snapshot m = some row → r ∈ rowIds →
        matchesPredicate runtime t scope row residual =
          matchesPredicate runtime t scope row predicate := fun r row hread hr =>
      (matchesPredicate_buildAndTree runtime t scope row htree).trans (hres r row hread hr)
    obtain ⟨kept, hkept, hmemKept⟩ := exists_filterEntries
      (fun row => matchesPredicate runtime t scope row residual)
      (t.versions.visibleEntriesById rowIds snapshot m) (by
        rintro ⟨r, row⟩ hentry
        obtain ⟨hr, hread⟩ := (hmem r row).mp hentry
        rw [htrees r row hread hr]
        exact heval r row hread)
    refine ⟨kept, hkept, fun r => ?_⟩
    rw [mem_map_fst]
    refine exists_congr fun row => ?_
    rw [hmemKept, hmem]
    constructor
    · rintro ⟨⟨hr, hread⟩, htrue⟩
      exact ⟨hread, htrees r row hread hr ▸ htrue⟩
    · rintro ⟨hread, htrue⟩
      have hr := hcandidate r row hread htrue
      exact ⟨⟨hr, hread⟩, (htrees r row hread hr).trans htrue⟩

variable {chosen : Predicate σ} {i : ℕ}

variable {row : Row}

theorem matchesPredicate_chosen (hi : (planConjuncts predicate)[i]? = some chosen)
    (h : matchesPredicate runtime t scope row predicate = .ok true) :
    matchesPredicate runtime t scope row chosen = .ok true := by
  rw [← evalAll_planConjuncts] at h
  exact evalAll_eq_true.mp h chosen (mem_of_getElem? hi)

/-- A path that finds exactly the rows of the chosen conjunct leaves it out of the residual. -/
theorem exact_of_mem_iff (heval : Evaluable runtime t scope snapshot m predicate)
    (hi : (planConjuncts predicate)[i]? = some chosen)
    (hmem : ∀ r row, t.versions.read r snapshot m = some row →
      (r ∈ rowIds ↔ matchesPredicate runtime t scope row chosen = .ok true)) :
    Exact runtime t scope snapshot m predicate
      (applyResidual (fun p row => matchesPredicate runtime t scope row p)
        (buildAndTree ((planConjuncts predicate).eraseIdx i))
        (t.versions.visibleEntriesById rowIds snapshot m)) := by
  refine exact_applyResidual heval (fun r row hread hr => ?_) fun r row hread htrue => ?_
  · rw [evalAll_eraseIdx hi ((hmem r row hread).mp hr), evalAll_planConjuncts]
  · exact (hmem r row hread).mpr (matchesPredicate_chosen hi htrue)

/-- A path that finds at least the rows of the chosen conjunct keeps it in the residual. -/
theorem exact_of_mem (heval : Evaluable runtime t scope snapshot m predicate)
    (hi : (planConjuncts predicate)[i]? = some chosen)
    (hmem : ∀ r row, t.versions.read r snapshot m = some row →
      matchesPredicate runtime t scope row chosen = .ok true → r ∈ rowIds) :
    Exact runtime t scope snapshot m predicate
      (applyResidual (fun p row => matchesPredicate runtime t scope row p)
        (buildAndTree (planConjuncts predicate))
        (t.versions.visibleEntriesById rowIds snapshot m)) :=
  exact_applyResidual heval (fun _ row _ _ => evalAll_planConjuncts runtime t scope row predicate)
    fun r row hread htrue => hmem r row hread (matchesPredicate_chosen hi htrue)

/-- A text that matches `%literal%` has the trigrams of the literal. -/
theorem mem_trigramLike {visible : ℕ → Option Row} (ht : t.HashServes visible) {node : PatternPred}
    {needle : List UInt8} (hneedle : likeContainsLiteral node.pattern = some needle)
    (hlen : 3 ≤ needle.length)
    (hidx : t.catalog.hasExpressionIndex (trigramExpression node.column) = true)
    (hread : visible r = some row)
    (htrue : matchesPredicate runtime t scope row (.like node) = .ok true) :
    r ∈ evalIntersectChildren t none (trigramProbes node.column needle) := by
  obtain ⟨i, text, hi, htext, hmatch⟩ := exists_of_matchesPredicate_like_eq_true htrue
  have hgrams := extractTrigrams_subset_of_isInfix hlen (isInfix_of_matchLikePattern hneedle hmatch)
  obtain ⟨name, hname⟩ := isSome_iff_exists.mp hidx
  obtain ⟨j, hj, hfind⟩ := ht.mem_find_trigram hname
  obtain rfl : j = i := by
    rw [scopedLookup_eq (by rw [hj]; rfl), hj] at hi
    exact Option.some.inj hi
  have hprobes : trigramProbes node.column needle =
      ((extractTrigrams needle).map fun gram =>
        ({ column := node.column
           expression := some (trigramExpression node.column)
           value := .string gram } : IndexEqualityProbe)).map .probe := by
    rw [trigramProbes, List.map_map]
    rfl
  rw [hprobes]
  refine (mem_evalIntersectChildren ?_ r).mpr ?_
  · rw [Ne, map_eq_nil_iff, map_eq_nil_iff, extractTrigrams, if_neg (by omega),
      map_eq_nil_iff, range_eq_nil]
    omega
  · rintro child hchild
    obtain ⟨probe, hprobe, rfl⟩ := mem_map.mp hchild
    obtain ⟨gram, hgram, rfl⟩ := mem_map.mp hprobe
    have hoperand : t.operandIndexName node.column (some (trigramExpression node.column)) =
        some name := hname
    rw [evalBitmapNode, mem_insertionSort]
    simp only [probeLookup_eq hoperand, getD_some]
    exact hfind r row hread text htext gram (hgrams hgram)

/-- Where one valid row has a text, the others have texts or NULL, which are ordered. -/
theorem isOrdered_of_text {row row' : Row} (hrow : t.validateRow row = .ok ())
    (hrow' : t.validateRow row' = .ok ()) {i : ℕ} {text : List UInt8}
    (htext : row.at i = .string text) :
    (row'.at i).IsOrdered := by
  obtain ⟨hlen, hcells, -⟩ := Table.validateRow_eq_ok.mp hrow
  obtain ⟨hlen', hcells', -⟩ := Table.validateRow_eq_ok.mp hrow'
  by_cases hi : i < t.schema.length
  · have hv : row[i]? = some row[i] := getElem?_eq_getElem (hlen ▸ hi)
    have hv' : row'[i]? = some row'[i] := getElem?_eq_getElem (hlen' ▸ hi)
    have hc : t.schema[i]? = some t.schema[i] := getElem?_eq_getElem hi
    simp only [Row.at, List.getD, hv, hv', getD_some] at htext ⊢
    have htype : ColumnType.string = t.schema[i].type := by
      simpa [htext, Table.CellOk, Value.isNull, Value.type, pure, Except.pure]
        using hcells i _ _ hv hc
    have hcell := hcells' i _ _ hv' hc
    rw [Table.CellOk, ← htype] at hcell
    generalize row'[i] = value at hcell ⊢
    cases value <;>
      simp [Value.type, Value.isNull, Value.IsOrdered, pure, Except.pure] at hcell ⊢
  · rw [Row.at, List.getD, getElem?_eq_none (by omega)]
    trivial

/-- LIKE matches the texts that split along the pattern. When an index serves the pattern by its
literal beginning or by the trigrams of the literal inside it, the live rows with a matching text
are among the row ids that the lookups return. -/
theorem like_candidates (t : Table) (ht : t.Current)
    (hrows : ∀ r row, t.rowStore.get r = some row → t.validateRow row = .ok ()) (scope : String)
    (node : PatternPred) :
    (∀ text, matchLikePattern text node.pattern = true ↔
      ∃ pieces, pieces.flatten = text ∧ List.Forall₂ LikePiece node.pattern pieces) ∧
    ∀ r row, t.rowStore.get r = some row →
      matchesPredicate runtime t scope row (.like node) = .ok true →
      (∀ literal, likePrefixLiteral node.pattern = some literal →
        t.catalog.hasIndex [node.column] = true →
        r ∈ (t.indexedLookup [node.column] (.string literal)).getD [] ++
          (t.orderedLookup node.column .greater (.string literal)).getD []) ∧
      ∀ needle, likeContainsLiteral node.pattern = some needle → 3 ≤ needle.length →
        t.catalog.hasExpressionIndex (trigramExpression node.column) = true →
        r ∈ evalIntersectChildren t none (trigramProbes node.column needle) := by
  have hserves : t.HashServes t.rowStore.get := ht.hashServes fun _ _ h => h
  refine ⟨fun _ => matchLikePattern_iff_pieces, fun r row hlive htrue =>
    ⟨fun literal hlit hidx => ?_, fun needle hneedle hlen hidx =>
      mem_trigramLike hserves hneedle hlen hidx hlive htrue⟩⟩
  obtain ⟨i, text, hi, htext, hmatch⟩ := exists_of_matchesPredicate_like_eq_true htrue
  obtain ⟨name, hname⟩ : ∃ name, t.operandIndexName node.column none = some name :=
    isSome_iff_exists.mp hidx
  obtain ⟨j, hj, hcols, hexpr⟩ := hserves.columnIndex hname
  obtain rfl : j = i := by
    rw [scopedLookup_eq (by rw [hj]; rfl), hj] at hi
    exact Option.some.inj hi
  have htri : t.indexManager.isTrigram name = false := by rw [isTrigram, hexpr]
  have hkey : ∀ row, t.indexManager.indexKeyForRow name row t.schema = .ok (row.at j) := by
    intro row
    rw [indexKeyForRow, hexpr, hcols]
    rfl
  obtain ⟨log, hlog⟩ := ht.built.exists_log name
    (Std.ExtTreeMap.mem_iff_isSome_getElem?.mpr (by rw [hcols]; rfl))
  have hord : ∀ entry ∈ log, entry.2.IsOrdered := by
    intro entry hentry
    obtain ⟨row', hlive', hkey'⟩ := (hlog.mem_iff entry.1 entry.2).mp hentry
    rw [hkey] at hkey'
    exact Except.ok.inj hkey' ▸ isOrdered_of_text (hrows r row hlive) (hrows _ row' hlive') htext
  have heq : t.indexedLookup [node.column] (.string literal) = _ := probeLookup_eq hname _
  have hgreater : t.orderedLookup node.column .greater (.string literal) = _ :=
    rangeLookup_eq hname _ _
  rw [heq, hgreater, getD_some, getD_some, mem_append, hlog.find, mem_hits,
    hlog.mem_orderedFind htri hord]
  by_cases hsame : text = literal
  · refine Or.inl ⟨_, (hlog.mem_iff r _).mpr ⟨row, hlive, hkey row⟩, ?_⟩
    simp [storedKeys, htri, htext, hsame, Value.beq]
  · refine Or.inr ⟨row, _, hlive, hkey row, ?_⟩
    rw [htext]
    exact decide_eq_true (lt_of_isPrefix_of_ne (isPrefix_of_matchLikePattern hlit hmatch) hsame)

/-- A table with a text column. -/
def likeTable : Table := { name := "t", schema := [{ name := "s", type := .string }] }

/-- The text `abcd` comes into the column, which has an index and a trigram index. -/
def likeOps : List TableOp :=
  [.createIndex "i" ["s"], .createExpressionIndex "g" (trigramExpression "s"),
    .insert [.string [97, 98, 99, 100]] 0]

/-- The row is among the candidates of `a%` by the index, and of `%bcd%` by the trigrams. -/
theorem like_candidates_ab : ∃ t, forM likeOps TableOp.perform likeTable = .ok ⟨⟩ t ∧
    0 ∈ (t.indexedLookup ["s"] (.string [97])).getD [] ++
      (t.orderedLookup "s" .greater (.string [97])).getD [] ∧
    0 ∈ evalIntersectChildren t none (trigramProbes "s" [98, 99, 100]) := by
  have hret : Exec.Returns (forM likeOps TableOp.perform) likeTable fun _ t =>
      t.rowStore.get 0 = some [.string [97, 98, 99, 100]] ∧
      (∀ entry ∈ t.rowStore.liveEntries, t.validateRow entry.2 = .ok ()) ∧
      (∀ pattern ∈ [[97, percent], [percent, 98, 99, 100, percent]],
        matchesPredicate (.noSubquery fun _ _ => .ok false) t "t" [.string [97, 98, 99, 100]]
          (.like { column := "s", pattern := pattern }) = .ok true) ∧
      t.catalog.hasIndex ["s"] = true ∧
      t.catalog.hasExpressionIndex (trigramExpression "s") = true := by
    decide +kernel
  obtain ⟨_, t, hrun, hlive, hvalid, htrue, hidx, hgram⟩ := hret
  have hnew : Table.construct "t" likeTable.schema [] [] [] = .ok likeTable := rfl
  have ht := Table.current_of_run hnew hrun
  have hrows : ∀ r row, t.rowStore.get r = some row → t.validateRow row = .ok () := fun r row h =>
    hvalid (r, row) ((PageRowStore.mem_liveEntries ht.rows.valid r row).mpr h)
  have h :=
    fun pattern hpattern => (like_candidates t ht hrows "t" _).2 0 _ hlive (htrue pattern hpattern)
  exact ⟨t, hrun, (h [97, percent] (by simp)).1 [97] rfl hidx,
    (h [percent, 98, 99, 100, percent] (by simp)).2 [98, 99, 100] rfl le_rfl hgram⟩

section Paths

variable (ht : t.IndexesServe fun r => t.versions.read r snapshot m)

include ht

theorem mem_comparison_iff {node : ComparisonPred} (hrhs : node.rhsColumn = none)
    (hkind : noTrigramComparison (.comparison node : Predicate σ) = true) {name : String}
    (hname : t.operandIndexName node.column node.expression = some name)
    (hread : t.versions.read r snapshot m = some row) :
    (node.op = .equal → (r ∈ (t.indexManager.hashIndex name).find node.value ↔
      matchesPredicate runtime t scope row (.comparison node) = .ok true)) ∧
    (r ∈ (t.indexManager.orderedIndex name).orderedFind node.op node.value ↔
      matchesPredicate runtime t scope row (.comparison node) = .ok true) := by
  have hkind' : ∀ e, node.expression = some e → e.kind ≠ .trigram := by
    simpa [noTrigramComparison, Option.all_eq_true] using hkind
  rw [matchesPredicate_comparison_eq_true hrhs]
  refine ⟨fun hop => ?_, ht.mem_orderedFind scope hname hkind' hread node.op node.value⟩
  rw [hop]
  exact ht.mem_find scope hname hkind' hread node.value

theorem mem_inList_iff {node : InListPred}
    (hkind : noTrigramComparison (.inList node : Predicate σ) = true) {name : String}
    (hname : t.operandIndexName node.column node.expression = some name)
    (hread : t.versions.read r snapshot m = some row) :
    r ∈ (node.inValues.flatMap fun value =>
        (probeLookup t node.column node.expression value).getD []) ↔
      matchesPredicate runtime t scope row (.inList node) = .ok true := by
  have hkind' : ∀ e, node.expression = some e → e.kind ≠ .trigram := by
    simpa [noTrigramComparison, Option.all_eq_true] using hkind
  rw [matchesPredicate_inList_eq_true, mem_flatMap]
  simp only [probeLookup_eq hname, getD_some, ht.mem_find scope hname hkind' hread]

/-- A text that matches `literal%` is the literal or greater. -/
theorem mem_prefixLike {node : PatternPred} {literal : List UInt8}
    (hlit : likePrefixLiteral node.pattern = some literal)
    (hidx : t.catalog.hasIndex [node.column] = true)
    (hread : t.versions.read r snapshot m = some row)
    (htrue : matchesPredicate runtime t scope row (.like node) = .ok true) :
    r ∈ (t.indexedLookup [node.column] (.string literal)).getD [] ++
      (t.orderedLookup node.column .greater (.string literal)).getD [] := by
  obtain ⟨i, text, hi, htext, hmatch⟩ := exists_of_matchesPredicate_like_eq_true htrue
  have hbegins := isPrefix_of_matchLikePattern hlit hmatch
  obtain ⟨name, hname⟩ : ∃ name, t.operandIndexName node.column none = some name :=
    isSome_iff_exists.mp hidx
  have hoperand : operandValue node.column none row (scopedLookup t scope) =
      .ok (.string text) := by
    simp only [operandValue, hi, htext]
    rfl
  have hnone : ∀ e : IndexExpression, none = some e → e.kind ≠ .trigram := by
    intro e h
    cases h
  have heq : t.indexedLookup [node.column] (.string literal) = _ := probeLookup_eq hname _
  have hgreater : t.orderedLookup node.column .greater (.string literal) = _ :=
    rangeLookup_eq hname _ _
  rw [heq, hgreater, getD_some, getD_some, mem_append,
    ht.mem_find scope hname hnone hread, ht.mem_orderedFind scope hname hnone hread]
  by_cases hsame : text = literal
  · exact Or.inl ⟨_, hoperand, by simp [Value.beq, hsame]⟩
  · exact Or.inr ⟨_, hoperand, decide_eq_true (lt_of_isPrefix_of_ne hbegins hsame)⟩

theorem mem_union_iff {children : List IndexBitmapNode}
    (hunion : tryMakeFullyIndexableOrUnion t.catalog chosen = some children)
    (hkind : noTrigramComparison chosen = true) (hread : t.versions.read r snapshot m = some row) :
    r ∈ evalUnionChildren t none children ↔
      ∃ disjunct ∈ collectOrDisjuncts chosen,
        matchesPredicate runtime t scope row disjunct = .ok true := by
  obtain ⟨rfl, hall⟩ := tryMakeFullyIndexableOrUnion_eq_some hunion
  simp only [mem_evalUnionChildren, List.mem_map, exists_exists_and_eq_and]
  refine exists_congr fun disjunct => and_congr_right fun hdisj => ?_
  rw [mem_probe_iff ht.toHashServes (hall disjunct hdisj) hread]
  exact probeFinds_iff ht.toHashServes (hall disjunct hdisj)
    (noTrigramComparison_of_mem_collectOrDisjuncts hkind disjunct hdisj) hread

end Paths

theorem exists_disjunct (hi : (planConjuncts predicate)[i]? = some chosen)
    (h : matchesPredicate runtime t scope row predicate = .ok true) :
    ∃ disjunct ∈ collectOrDisjuncts chosen,
      matchesPredicate runtime t scope row disjunct = .ok true := by
  have hchosen := matchesPredicate_chosen hi h
  rw [← evalAny_collectOrDisjuncts] at hchosen
  exact exists_of_evalAny_eq_true hchosen

/-- The predicate is true where a disjunct of the chosen conjunct and all other conjuncts are. -/
theorem matchesPredicate_of_disjunct (heval : Evaluable runtime t scope snapshot m predicate)
    (hi : (planConjuncts predicate)[i]? = some chosen)
    (hread : t.versions.read r snapshot m = some row)
    (hothers : evalAll (matchesPredicate runtime t scope row)
      ((planConjuncts predicate).eraseIdx i) = .ok true)
    (hdisj : ∃ disjunct ∈ collectOrDisjuncts chosen,
      matchesPredicate runtime t scope row disjunct = .ok true) :
    matchesPredicate runtime t scope row predicate = .ok true := by
  have hchosen : matchesPredicate runtime t scope row predicate =
      matchesPredicate runtime t scope row chosen := by
    rw [← evalAll_planConjuncts, evalAll_of_eraseIdx hi hothers]
  obtain ⟨value, hvalue⟩ := heval r row hread
  rw [hvalue]
  rw [hchosen, ← evalAny_collectOrDisjuncts] at hvalue
  cases value with
  | true => rfl
  | false =>
    obtain ⟨disjunct, hmem, htrue⟩ := hdisj
    rw [evalAny_eq_false.mp hvalue disjunct hmem] at htrue
    cases htrue

/-- The union path with a residual: the residual adds rows to the union, so the result is right only
where it is true exactly on the rows of the union. -/
theorem exact_union_iff (heval : Evaluable runtime t scope snapshot m predicate)
    (hi : (planConjuncts predicate)[i]? = some chosen) {residual : Predicate σ}
    (hres : buildAndTree ((planConjuncts predicate).eraseIdx i) = some residual)
    (hmem : ∀ r row, t.versions.read r snapshot m = some row →
      (r ∈ rowIds ↔ ∃ disjunct ∈ collectOrDisjuncts chosen,
        matchesPredicate runtime t scope row disjunct = .ok true)) :
    Exact runtime t scope snapshot m predicate (do
      return t.versions.visibleEntriesById rowIds snapshot m ++
        (← complementaryScan (fun p row => matchesPredicate runtime t scope row p)
          (t.versions.visibleEntries snapshot m) rowIds residual)) ↔
      ∀ r row, t.versions.read r snapshot m = some row →
        matchesPredicate runtime t scope row residual = .ok (decide (r ∈ rowIds)) := by
  have hbyId := t.versions.mem_visibleEntriesById rowIds snapshot m
  have hvis := t.versions.mem_visibleEntries snapshot m
  have hothers : ∀ row, matchesPredicate runtime t scope row residual =
      evalAll (matchesPredicate runtime t scope row) ((planConjuncts predicate).eraseIdx i) :=
    fun row => matchesPredicate_buildAndTree runtime t scope row hres
  constructor
  · rintro ⟨entries, hentries, hexact⟩ r row hread
    rcases hscan : complementaryScan (fun p row => matchesPredicate runtime t scope row p)
        (t.versions.visibleEntries snapshot m) rowIds residual with e | added
    · rw [hscan] at hentries
      cases hentries
    rw [hscan] at hentries
    obtain rfl : t.versions.visibleEntriesById rowIds snapshot m ++ added = entries :=
      Except.ok.inj hentries
    obtain ⟨hall, hadded⟩ := filterEntries_eq_ok.mp hscan
    -- a row that is returned satisfies the predicate
    have hreturned : (r, row) ∈ t.versions.visibleEntriesById rowIds snapshot m ++ added →
        matchesPredicate runtime t scope row predicate = .ok true := by
      intro hentry
      obtain ⟨row', hread', htrue⟩ := (hexact r).mp (mem_map_of_mem hentry)
      rw [hread] at hread'
      exact Option.some.inj hread' ▸ htrue
    by_cases hr : r ∈ rowIds
    · have htrue := hreturned (mem_append_left _ ((hbyId r row).mpr ⟨hr, hread⟩))
      rw [← evalAll_planConjuncts, evalAll_eq_true] at htrue
      rw [hothers, decide_eq_true hr, evalAll_eq_true]
      exact fun p hp => htrue p (mem_of_mem_eraseIdx hp)
    · have hentry : (r, row) ∈ (t.versions.visibleEntries snapshot m).filter
          fun entry => !rowIds.contains entry.1 := by
        rw [mem_filter, hvis]
        exact ⟨hread, by simpa using hr⟩
      obtain ⟨keep, hkeep⟩ := hall _ hentry
      rw [decide_eq_false hr]
      cases keep with
      | false => exact hkeep
      | true =>
        refine absurd ((hmem r row hread).mpr (exists_disjunct hi ?_)) hr
        refine hreturned (mem_append_right _ (hadded ▸ mem_filter.mpr ⟨hentry, ?_⟩))
        rw [hkeep]
        rfl
  · intro hcond
    -- nothing is added, and the union satisfies the predicate
    have hnone : complementaryScan (fun p row => matchesPredicate runtime t scope row p)
        (t.versions.visibleEntries snapshot m) rowIds residual = .ok [] := by
      refine filterEntries_eq_ok.mpr ⟨?_, ?_⟩
      · rintro ⟨r, row⟩ hentry
        exact ⟨_, hcond r row ((hvis r row).mp (mem_filter.mp hentry).1)⟩
      · refine (filter_eq_nil_iff.mpr ?_).symm
        rintro ⟨r, row⟩ hentry
        rw [mem_filter, hvis] at hentry
        have hr : r ∉ rowIds := by simpa using hentry.2
        simp [hcond r row hentry.1, hr, Except.toOption]
    rw [hnone]
    refine ⟨_, rfl, fun r => ?_⟩
    rw [append_nil, mem_map_fst]
    refine exists_congr fun row => ?_
    rw [hbyId]
    constructor
    · rintro ⟨hr, hread⟩
      have htrue := hcond r row hread
      rw [decide_eq_true hr, hothers] at htrue
      exact ⟨hread, matchesPredicate_of_disjunct heval hi hread htrue ((hmem r row hread).mp hr)⟩
    · rintro ⟨hread, htrue⟩
      exact ⟨(hmem r row hread).mpr (exists_disjunct hi htrue), hread⟩

/-- When the chosen conjunct is an OR there are other conjuncts: an OR alone is planned before. -/
theorem eraseIdx_ne_nil {stats : RelationStats C} {left right : Predicate σ}
    (hreach : ReachesFinalize predicate stats t.catalog (.or left right)) :
    (planConjuncts predicate).eraseIdx (bestChoice predicate stats t.catalog).bestIndex ≠ [] := by
  intro hnil
  obtain ⟨hlt, hchosen⟩ := List.getElem?_eq_some_iff.mp hreach.chosen
  have hlen := length_eraseIdx_of_lt hlt
  rw [hnil, length_nil] at hlen
  obtain ⟨p, hp⟩ := length_eq_one_iff.mp (show (planConjuncts predicate).length = 1 by omega)
  obtain rfl : p = .or left right := by
    have hmem := mem_of_getElem? hreach.chosen
    rw [hp] at hmem
    exact (mem_singleton.mp hmem).symm
  -- the only conjunct is an OR, so it is the whole predicate
  obtain ⟨q, hq, hor⟩ := map_eq_singleton_iff.mp hp
  have hwhole := eq_of_collectAndConjuncts_eq_singleton hq
  rw [eq_or_of_rewriteToIn_eq_or hor] at hwhole
  exact tryPlanTopLevelOrUnion_or_ne_none left right (hwhole ▸ hreach.noUnion)

/-- When `planSelect` reaches `finalizeBestAccessPath`, the scan returns the visible rows that
satisfy the predicate unless the conjunct it serves is an OR; then it does so just when, on the
visible rows, the other conjuncts are all true exactly where a disjunct is true. -/
theorem exact_collectVisibleEntries_iff (stats : RelationStats C)
    (ht : t.IndexesServe fun r => t.versions.read r snapshot m)
    (heval : Evaluable runtime t scope snapshot m predicate)
    (hkind : noTrigramComparison predicate = true)
    (hreach : ReachesFinalize predicate stats t.catalog chosen) :
    Exact runtime t scope snapshot m predicate
        (collectVisibleEntries runtime t scope snapshot m (some predicate)
          (planSelect (some predicate) stats t.catalog)) ↔
      (∀ left right, chosen ≠ .or left right) ∨
        ∀ r row, t.versions.read r snapshot m = some row →
          evalAll (matchesPredicate runtime t scope row) ((planConjuncts predicate).eraseIdx
              (bestChoice predicate stats t.catalog).bestIndex) =
            .ok (decide (∃ disjunct ∈ collectOrDisjuncts chosen,
              matchesPredicate runtime t scope row disjunct = .ok true)) := by
  have hchosenKind := noTrigramComparison_of_mem_planConjuncts hkind chosen
    (mem_of_getElem? hreach.chosen)
  have hserves : Serves t.catalog chosen (bestChoice predicate stats t.catalog).bestPath
      (bestChoice predicate stats t.catalog).bestTrigramIntersect
      (bestChoice predicate stats t.catalog).bestUnion :=
    serves_chooseBestConjunctPath hreach.chosen
  have hi := hreach.chosen
  have hothers : ∀ left right, chosen = .or left right → (planConjuncts predicate).eraseIdx
      (bestChoice predicate stats t.catalog).bestIndex ≠ [] := by
    rintro left right rfl
    exact eraseIdx_ne_nil hreach
  rw [planSelect_eq_finalize hreach]
  generalize bestChoice predicate stats t.catalog = choice at hserves hi hothers ⊢
  obtain ⟨i, path, cost, trigram, unionPlan⟩ := choice
  simp only at hserves hi hothers
  cases hserves with
  | equality hrhs hop hidx =>
    obtain ⟨name, hname⟩ := operandIndexName_of_hasOperandIndex hidx
    have hexact := exact_of_mem_iff heval hi fun r row hread =>
      (mem_comparison_iff ht hrhs hchosenKind hname hread).1 hop
    refine iff_of_true ?_ (Or.inl (by simp))
    simpa [collectVisibleEntries, finalizeBestAccessPath, chosenPath, keepsChosen,
      probeLookup_eq hname] using hexact
  | range hrhs hop hidx =>
    obtain ⟨name, hname⟩ := operandIndexName_of_hasOperandIndex hidx
    have hexact := exact_of_mem_iff heval hi fun r row hread =>
      (mem_comparison_iff ht hrhs hchosenKind hname hread).2
    refine iff_of_true ?_ (Or.inl (by simp))
    simpa [collectVisibleEntries, finalizeBestAccessPath, chosenPath, keepsChosen,
      rangeLookup_eq hname] using hexact
  | inList hidx =>
    obtain ⟨name, hname⟩ := operandIndexName_of_hasOperandIndex hidx
    have hexact := exact_of_mem_iff heval hi fun r row hread =>
      mem_inList_iff ht hchosenKind hname hread
    refine iff_of_true ?_ (Or.inl (by simp))
    simpa [collectVisibleEntries, finalizeBestAccessPath, chosenPath, keepsChosen] using hexact
  | prefixLike hlit hidx =>
    have hexact := exact_of_mem heval hi fun r row hread htrue =>
      mem_prefixLike ht hlit hidx hread htrue
    refine iff_of_true ?_ (Or.inl (by simp))
    simpa [collectVisibleEntries, finalizeBestAccessPath, chosenPath, keepsChosen, hlit]
      using hexact
  | trigramLike hneedle hlen hidx =>
    have hexact := exact_of_mem heval hi fun r row hread htrue =>
      mem_trigramLike ht.toHashServes hneedle hlen hidx hread htrue
    refine iff_of_true ?_ (Or.inl (by simp))
    simpa [collectVisibleEntries, finalizeBestAccessPath, chosenPath, keepsChosen,
      ite_applyResidual] using hexact
  | union hunion =>
    obtain ⟨left, right, rfl⟩ := exists_or_of_tryMakeFullyIndexableOrUnion hunion
    obtain ⟨residual, hres⟩ := exists_buildAndTree (hothers left right rfl)
    have hnot : ¬∀ left' right', left.or right ≠ Predicate.or left' right' := fun h =>
      h left right rfl
    rw [or_iff_right hnot]
    simp only [collectVisibleEntries, finalizeBestAccessPath, chosenPath, keepsChosen,
      reduceCtorEq, decide_false, Bool.false_and, Bool.or_self, Bool.false_eq_true, if_false,
      hres]
    refine (exact_union_iff heval hi hres fun r row hread =>
      mem_union_iff ht hunion hchosenKind hread).trans ?_
    refine forall_congr' fun r => forall_congr' fun row => forall_congr' fun hread => ?_
    rw [matchesPredicate_buildAndTree runtime t scope row hres,
      decide_eq_decide.mpr (mem_union_iff ht hunion hchosenKind hread)]

end Scan

section OneRow

/-- Costs as rational numbers. -/
instance : CostArith ℚ where
  ofNat := fun n => n
  mul := (· * ·)
  sub := (· - ·)
  div := (· / ·)
  lt := fun a b => decide (a < b)
  eq := fun a b => decide (a = b)

/-- Three columns of integers. -/
def threeColumns : List Column :=
  [{ name := "a", type := .int }, { name := "b", type := .int }, { name := "c", type := .int }]

/-- A new table with them. -/
def threeColumnTable : Table := { name := "t", schema := threeColumns }

/-- Indexes on `a` and `b`, and the row `(1, 0, 0)`. -/
def oneRowOps : List TableOp :=
  [.createIndex "ia" ["a"], .createIndex "ib" ["b"],
    .insert [.int 1, .int 0, .int 0] systemTransactionId]

/-- Statistics that count the row. -/
def oneRowStats : RelationStats ℚ where
  rowCount := 1
  columnHistogram := fun _ => none

/-- No regular expression is evaluated below. -/
abbrev plainRuntime : PredicateRuntime Empty := .noSubquery fun _ _ => .ok false

/-- `column op value`. -/
def compareInt (column : String) (op : ComparisonOperator) (value : Int64) : Predicate Empty :=
  .comparison { column := column, op := op, value := .int value }

/-- `a = 1 OR b = 2`. -/
def oneOrTwo : Predicate Empty := .or (compareInt "a" .equal 1) (compareInt "b" .equal 2)

/-- The indexes serve the scans with a predicate, decided on the row that the run leaves. -/
theorem oneRow_returns (predicate chosen : Predicate Empty)
    (h : Exec.Returns (forM oneRowOps TableOp.perform) threeColumnTable fun _ t =>
      (∀ entry ∈ t.versions.visibleEntries {} {},
        (matchesPredicate plainRuntime t "t" entry.2 predicate).isOk = true) ∧
      tryPlanTopLevelOrUnion (rewriteToIn predicate) oneRowStats t.catalog
        (fullScanCost oneRowStats) = none ∧
      tryPlanCompositeHashEq (planConjuncts predicate) oneRowStats t.catalog
        (bestChoice predicate oneRowStats t.catalog).bestCost = none ∧
      tryPlanAndIntersect (planConjuncts predicate) oneRowStats t.catalog
        (bestChoice predicate oneRowStats t.catalog).bestCost = none ∧
      (planConjuncts predicate)[(bestChoice predicate oneRowStats t.catalog).bestIndex]? =
        some chosen) :
    Exec.Returns (forM oneRowOps TableOp.perform) threeColumnTable fun _ t =>
      t.IndexesServe (fun r => t.versions.read r {} {}) ∧
        Evaluable plainRuntime t "t" {} {} predicate ∧
        ReachesFinalize predicate oneRowStats t.catalog chosen := by
  have hrows : Exec.Returns (forM oneRowOps TableOp.perform) threeColumnTable fun _ t =>
      t.indexManager.indexExpressions.isEmpty = true ∧
      (∀ entry ∈ t.rowStore.liveEntries, ∀ value ∈ entry.2, value.IsOrdered) ∧
      ∀ entry ∈ t.versions.visibleEntries {} {}, t.rowStore.get entry.1 = some entry.2 := by
    decide +kernel
  obtain ⟨u, t, hrun, ⟨hplain, hcells, hvis⟩, heval, hunion, hcomposite, hintersect, hchosen⟩ :=
    hrows.and h
  have hnew : Table.construct "t" threeColumns [] [] [] = .ok threeColumnTable := rfl
  have ht := Table.current_of_run hnew hrun
  have hkeys : t.indexManager.OrderedKeys t.rowStore t.schema :=
    orderedKeys_of_liveEntries ht.rows.valid (Std.ExtTreeMap.isEmpty_iff.mp hplain)
      hcells
  exact ⟨u, t, hrun, ht.indexesServe hkeys fun r row hread =>
      hvis (r, row) ((t.versions.mem_visibleEntries {} {} r row).mpr hread),
    evaluable_of_visibleEntries heval, hunion, hcomposite, hintersect, hchosen⟩

theorem exact_equality_and_range : ∃ t, forM oneRowOps TableOp.perform threeColumnTable = .ok ⟨⟩ t ∧
    Exact plainRuntime t "t" {} {} (.and (compareInt "a" .equal 1) (compareInt "c" .greater 5))
      (collectVisibleEntries plainRuntime t "t" {} {}
        (some (.and (compareInt "a" .equal 1) (compareInt "c" .greater 5)))
        (planSelect (some (.and (compareInt "a" .equal 1) (compareInt "c" .greater 5))) oneRowStats
          t.catalog)) := by
  obtain ⟨_, t, hrun, hserves, heval, hreach⟩ := oneRow_returns
    (.and (compareInt "a" .equal 1) (compareInt "c" .greater 5)) (compareInt "a" .equal 1)
    (by decide +kernel)
  exact ⟨t, hrun, (exact_collectVisibleEntries_iff oneRowStats hserves heval (by decide) hreach).mpr
    (Or.inl fun _ _ h => nomatch h)⟩

/-- For `(a = 1 OR b = 2) AND c > 5` the scan returns the row `(1, 0, 0)`, which does not satisfy
it. -/
theorem not_exact_nested_or : ∃ t,
    Table.construct "t" threeColumns [] [] [] = .ok threeColumnTable ∧
      forM oneRowOps TableOp.perform threeColumnTable = .ok ⟨⟩ t ∧
      t.IndexesServe (fun r => t.versions.read r {} {}) ∧
      Evaluable plainRuntime t "t" {} {} (.and oneOrTwo (compareInt "c" .greater 5)) ∧
      noTrigramComparison (.and oneOrTwo (compareInt "c" .greater 5)) = true ∧
      ReachesFinalize (.and oneOrTwo (compareInt "c" .greater 5)) oneRowStats t.catalog oneOrTwo ∧
      ¬Exact plainRuntime t "t" {} {} (.and oneOrTwo (compareInt "c" .greater 5))
        (collectVisibleEntries plainRuntime t "t" {} {}
          (some (.and oneOrTwo (compareInt "c" .greater 5)))
          (planSelect (some (.and oneOrTwo (compareInt "c" .greater 5))) oneRowStats
            t.catalog)) := by
  have hserves := oneRow_returns (.and oneOrTwo (compareInt "c" .greater 5)) oneOrTwo
    (by decide +kernel)
  have hscan : Exec.Returns (forM oneRowOps TableOp.perform) threeColumnTable fun _ t =>
      collectVisibleEntries plainRuntime t "t" {} {}
        (some (.and oneOrTwo (compareInt "c" .greater 5)))
        (planSelect (some (.and oneOrTwo (compareInt "c" .greater 5))) oneRowStats t.catalog) =
          .ok [(0, [.int 1, .int 0, .int 0])] ∧
      t.versions.read 0 {} {} = some [.int 1, .int 0, .int 0] ∧
      matchesPredicate plainRuntime t "t" [.int 1, .int 0, .int 0]
        (.and oneOrTwo (compareInt "c" .greater 5)) = .ok false := by
    decide +kernel
  obtain ⟨_, t, hrun, ⟨hserves, heval, hreach⟩, hscan, hrow, hfalse⟩ := hserves.and hscan
  refine ⟨t, rfl, hrun, hserves, heval, by decide, hreach, ?_⟩
  rintro ⟨entries, hentries, hexact⟩
  obtain rfl := Except.ok.inj (hscan.symm.trans hentries)
  obtain ⟨row, hread, htrue⟩ := (hexact 0).mp (by simp)
  obtain rfl := Option.some.inj (hrow.symm.trans hread)
  rw [hfalse] at htrue
  cases htrue

end OneRow

end VertexDB
