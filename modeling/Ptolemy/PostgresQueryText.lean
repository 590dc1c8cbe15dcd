/-
# The text of a lookup

`PostgresStorer.query` sends its contexts as text: `_query_constructor` puts each
field and each value between two quotes, as it is.  Here the text is read back, its
string constants as SQL reads them (`Sql.scan`), into the contexts that it asks for.

It asks for the contexts that were given exactly where no quote stands in any of
their fields and values (`asked_iff_unquoted`); then `Db.query` finds the rows that the
text describes.
-/
import Ptolemy.Postgres
import Ptolemy.SqlLiteral

namespace Postgres

/-! ## The text -/

/-- How the contexts of a lookup are joined. -/
inductive Operation : Type where
  | and : Operation
  | or : Operation
  deriving DecidableEq, Repr

def Operation.text : Operation → String
  | .and => "AND"
  | .or => "OR"

/-- One field of a context. -/
def testText (field : String) (p : String × String) : String :=
  field ++ "->'" ++ p.1 ++ "'='" ++ p.2 ++ "'"

/-- One context. -/
def contextText (field : String) (kwargs : List (String × String)) : String :=
  "(" ++ Text.join " AND " (kwargs.map (testText field)) ++ ")"

def _query_constructor (o : IterOrder) (anonHash : List Doc) (field : String)
    (operation : Operation) : String :=
  Text.join (" " ++ operation.text ++ " ")
    (anonHash.map (fun kwargs => contextText field (o.order kwargs.items)))

/-! ## Reading it -/

/-- The text behind a fixed part. -/
def expect (p : String) (t : List Char) : Option (List Char) := t.dropPrefix? p.toList

/-- A string constant. -/
def readLiteral (t : List Char) : Option (String × List Char) := do
  let t ← expect "'" t
  let (v, t) ← Sql.scan .inside t
  pure (String.ofList v, t)

/-- `field->'k'='v'`. -/
def readTest (field : String) (t : List Char) : Option ((String × String) × List Char) := do
  let t ← expect (field ++ "->") t
  let (k, t) ← readLiteral t
  let t ← expect "=" t
  let (v, t) ← readLiteral t
  pure ((k, v), t)

/-- One item and more of them, each behind a separator; the number bounds how many. -/
def readSeparated {α : Type} (sep : String) (item : List Char → Option (α × List Char)) :
    ℕ → List Char → Option (List α × List Char)
  | 0, _ => none
  | n + 1, t => do
    let (a, t) ← item t
    match expect sep t with
    | none => pure ([a], t)
    | some t => do
      let (l, t) ← readSeparated sep item n t
      pure (a :: l, t)

/-- The tests of a context, in brackets. -/
def readContext (field : String) (t : List Char) :
    Option (List (String × String) × List Char) := do
  let t ← expect "(" t
  let (l, t) ← readSeparated " AND " (readTest field) t.length t
  let t ← expect ")" t
  pure (l, t)

/-- The contexts that a clause asks for, if it is one. -/
def readClause (field : String) (operation : Operation) (text : String) :
    Option (List (List (String × String))) :=
  match readSeparated (" " ++ operation.text ++ " ") (readContext field) text.toList.length
      text.toList with
  | some (l, []) => some l
  | _ => none

/-- Whether a row is asked for. -/
def asksFor (operation : Operation) (contexts : List (List (String × String))) (row : Doc) : Bool :=
  let meets (kwargs : List (String × String)) : Bool :=
    kwargs.all (fun p => row.lookup p.1 = some p.2)
  match operation with
  | .and => contexts.all meets
  | .or => contexts.any meets

/-! ## Reading back -/

/-- Before texts that satisfy `P`, the text is read as `a` exactly under the condition `good`,
and up to its end. -/
def ReadsBack {α : Type} (item : List Char → Option (α × List Char)) (P : List Char → Prop)
    (a : α) (text : String) (good : Prop) : Prop :=
  ∀ rest, P rest → ∀ r, item (text.toList ++ rest) = some (a, r) ↔ good ∧ r = rest

theorem expect_append (p : String) (t : List Char) : expect p (p.toList ++ t) = some t :=
  List.dropPrefix?_append_of_beq t (by simp)

theorem readLiteral_readsBack (v : String) :
    ReadsBack readLiteral Sql.Closes v ("'" ++ v ++ "'") ('\'' ∉ v.toList) := by
  intro rest hrest r
  have htext : ("'" ++ v ++ "'").toList ++ rest = "'".toList ++ (v.toList ++ '\'' :: rest) := by
    simp
  rw [htext, readLiteral, expect_append, ← Sql.scan_text_iff hrest v.toList r]
  constructor
  · intro h
    cases hs : Sql.scan .inside (v.toList ++ '\'' :: rest) with
    | none => simp [hs] at h
    | some p =>
      simp only [hs, Option.pure_def, Option.bind_eq_bind, Option.bind_some, Option.some_inj,
        Prod.mk.injEq] at h
      rw [← h.1, ← h.2, String.toList_ofList]
  · intro h
    simp [h]

theorem readTest_readsBack (field : String) (p : String × String) :
    ReadsBack (readTest field) Sql.Closes p (testText field p)
      ('\'' ∉ p.1.toList ∧ '\'' ∉ p.2.toList) := by
  intro rest hrest r
  have htext : (testText field p).toList ++ rest = (field ++ "->").toList
      ++ (("'" ++ p.1 ++ "'").toList ++ ("=".toList ++ (("'" ++ p.2 ++ "'").toList ++ rest))) := by
    simp [testText]
  have hk := readLiteral_readsBack p.1 ("=".toList ++ (("'" ++ p.2 ++ "'").toList ++ rest))
    (Sql.closes_cons (by decide) (by decide) _)
  have hv := readLiteral_readsBack p.2 rest hrest
  rw [htext, readTest, expect_append, Option.bind_eq_bind, Option.bind_some]
  constructor
  · intro h
    obtain ⟨⟨k, t⟩, ht, h⟩ := Option.bind_eq_some_iff.mp h
    obtain ⟨t', ht', h⟩ := Option.bind_eq_some_iff.mp h
    obtain ⟨⟨v, t''⟩, ht'', h⟩ := Option.bind_eq_some_iff.mp h
    simp only [Option.pure_def, Option.some_inj, Prod.mk.injEq] at h
    obtain ⟨rfl, rfl⟩ := h
    obtain ⟨hk', rfl⟩ := (hk t).mp ht
    rw [expect_append, Option.some_inj] at ht'
    subst ht'
    obtain ⟨hv', rfl⟩ := (hv t'').mp ht''
    exact ⟨⟨hk', hv'⟩, rfl⟩
  · rintro ⟨⟨hk', hv'⟩, rfl⟩
    simp only [(hk _).mpr ⟨hk', rfl⟩, expect_append, (hv _).mpr ⟨hv', rfl⟩, Option.bind_eq_bind,
      Option.bind_some, Option.pure_def]

section

variable {α : Type} {sep : String} {item : List Char → Option (α × List Char)}

/-- The first item of a sequence is read from its front. -/
theorem exists_item {n : ℕ} {t r : List Char} {a : α} {l : List α}
    (h : readSeparated sep item n t = some (a :: l, r)) : ∃ t', item t = some (a, t') := by
  cases n with
  | zero => simp [readSeparated] at h
  | succ n =>
    rw [readSeparated] at h
    obtain ⟨⟨a', t'⟩, ht, h⟩ := Option.bind_eq_some_iff.mp h
    refine ⟨t', ?_⟩
    rw [ht]
    cases he : expect sep t' with
    | none =>
      simp only [he, Option.pure_def, Option.some_inj, Prod.mk.injEq, List.cons.injEq] at h
      rw [h.1.1]
    | some t'' =>
      simp only [he] at h
      obtain ⟨⟨l', r'⟩, -, h⟩ := Option.bind_eq_some_iff.mp h
      simp only [Option.pure_def, Option.some_inj, Prod.mk.injEq, List.cons.injEq] at h
      rw [h.1.1]

/-- **Sequences are read back where their items are**, before a text that does not begin with the
separator. -/
theorem readSeparated_readsBack {P : List Char → Prop} {render : α → String} {good : α → Prop}
    {l : List α} (hitem : ∀ a ∈ l, ReadsBack item P a (render a) (good a))
    (hsep : ∀ t, P (sep.toList ++ t)) (hl : l ≠ []) {n : ℕ} (hn : l.length ≤ n) :
    ReadsBack (readSeparated sep item n) (fun t => P t ∧ expect sep t = none) l
      (Text.join sep (l.map render)) (∀ a ∈ l, good a) := by
  intro rest ⟨hP, hend⟩ r
  induction l generalizing n with
  | nil => exact absurd rfl hl
  | cons a l ih =>
    obtain ⟨n, rfl⟩ : ∃ m, n = m + 1 := ⟨n - 1, by rw [List.length_cons] at hn; omega⟩
    cases l with
    | nil =>
      have hread := hitem a List.mem_cons_self rest hP
      rw [List.map_singleton, Text.join, List.forall_mem_singleton]
      constructor
      · intro h
        obtain ⟨t', ht'⟩ := exists_item h
        obtain ⟨hgood, rfl⟩ := (hread t').mp ht'
        simp only [readSeparated, ht', hend, Option.bind_eq_bind, Option.bind_some,
          Option.pure_def, Option.some_inj, Prod.mk.injEq] at h
        exact ⟨hgood, h.2.symm⟩
      · rintro ⟨hgood, rfl⟩
        simp [readSeparated, (hread r).mpr ⟨hgood, rfl⟩, hend]
    | cons b l =>
      have htext : (Text.join sep ((a :: b :: l).map render)).toList ++ rest = (render a).toList
          ++ (sep.toList ++ ((Text.join sep ((b :: l).map render)).toList ++ rest)) := by
        simp [Text.join]
      have hread := hitem a List.mem_cons_self
        (sep.toList ++ ((Text.join sep ((b :: l).map render)).toList ++ rest)) (hsep _)
      have ih' := ih (fun c hc => hitem c (List.mem_cons_of_mem a hc)) (by simp) (n := n)
        (by simpa using hn)
      rw [htext, List.forall_mem_cons, and_assoc, ← ih']
      constructor
      · intro h
        obtain ⟨t', ht'⟩ := exists_item h
        obtain ⟨hgood, rfl⟩ := (hread t').mp ht'
        refine ⟨hgood, ?_⟩
        simp only [readSeparated, ht', expect_append, Option.bind_eq_bind, Option.bind_some] at h
        obtain ⟨⟨l', r'⟩, hl', h⟩ := Option.bind_eq_some_iff.mp h
        simp only [Option.pure_def, Option.some_inj, Prod.mk.injEq, List.cons.injEq] at h
        rw [hl', h.1.2, h.2]
      · rintro ⟨hgood, h⟩
        simp only [readSeparated, (hread _).mpr ⟨hgood, rfl⟩, expect_append, h,
          Option.bind_eq_bind, Option.bind_some, Option.pure_def]

/-- A joined sequence is at least as long as it has items, if none of them is empty. -/
theorem length_le_join {render : α → String} (h : ∀ a, render a ≠ "") (l : List α) :
    l.length ≤ (Text.join sep (l.map render)).toList.length := by
  have hpos : ∀ a, 1 ≤ (render a).toList.length := fun a =>
    List.length_pos_of_ne_nil (fun hnil => h a (String.toList_eq_nil_iff.mp hnil))
  induction l with
  | nil => exact Nat.zero_le _
  | cons a l ih =>
    cases l with
    | nil => simpa [Text.join] using hpos a
    | cons b l =>
      have ha := hpos a
      rw [List.map_cons, List.map_cons, Text.join, ← List.map_cons, String.toList_append,
        String.toList_append, List.length_append, List.length_append, List.length_cons]
      omega

end

/-- No key and no value has a quote in it. -/
def Unquoted (kwargs : List (String × String)) : Prop :=
  ∀ p ∈ kwargs, '\'' ∉ p.1.toList ∧ '\'' ∉ p.2.toList

instance (kwargs : List (String × String)) : Decidable (Unquoted kwargs) :=
  inferInstanceAs (Decidable (∀ p ∈ kwargs, _))

theorem testText_ne_empty (field : String) (p : String × String) : testText field p ≠ "" := by
  intro h
  have := congrArg String.toList h
  simp [testText] at this

theorem contextText_ne_empty (field : String) (kwargs : List (String × String)) :
    contextText field kwargs ≠ "" := by
  intro h
  have := congrArg String.toList h
  simp [contextText] at this

theorem readContext_readsBack (field : String) {kwargs : List (String × String)}
    (hne : kwargs ≠ []) :
    ReadsBack (readContext field) (fun _ => True) kwargs (contextText field kwargs)
      (Unquoted kwargs) := by
  intro rest _ r
  have htext : (contextText field kwargs).toList ++ rest = "(".toList
      ++ ((Text.join " AND " (kwargs.map (testText field))).toList ++ (")".toList ++ rest)) := by
    simp [contextText]
  have hclose : Sql.Closes (")".toList ++ rest) := Sql.closes_cons (by decide) (by decide) rest
  have hsep : ∀ t, Sql.Closes (" AND ".toList ++ t) := fun t =>
    Sql.closes_white (by decide) (Sql.closes_cons (by decide) (by decide) _)
  have hlength : kwargs.length ≤ ((Text.join " AND " (kwargs.map (testText field))).toList
      ++ (")".toList ++ rest)).length := by
    rw [List.length_append]
    exact (length_le_join (testText_ne_empty field) kwargs).trans (Nat.le_add_right _ _)
  have hread := readSeparated_readsBack (fun p _ => readTest_readsBack field p) hsep hne hlength
    (")".toList ++ rest) ⟨hclose, rfl⟩
  rw [htext, readContext, expect_append, Option.bind_eq_bind, Option.bind_some]
  constructor
  · intro h
    obtain ⟨⟨l, t⟩, ht, h⟩ := Option.bind_eq_some_iff.mp h
    obtain ⟨t', ht', h⟩ := Option.bind_eq_some_iff.mp h
    simp only [Option.pure_def, Option.some_inj, Prod.mk.injEq] at h
    obtain ⟨rfl, rfl⟩ := h
    obtain ⟨hgood, rfl⟩ := (hread t).mp ht
    rw [expect_append, Option.some_inj] at ht'
    exact ⟨hgood, ht'.symm⟩
  · rintro ⟨hgood, rfl⟩
    simp only [(hread _).mpr ⟨hgood, rfl⟩, expect_append, Option.bind_eq_bind, Option.bind_some,
      Option.pure_def]

/-! ## What a lookup asks for -/

/-- The text asks for the contexts that were given, and nothing else. -/
def Asked (o : IterOrder) (contexts : List Doc) (operation : Operation) : Prop :=
  readClause "context" operation (_query_constructor o contexts "context" operation)
    = some (contexts.map (fun kwargs => o.order kwargs.items))

instance (o : IterOrder) (contexts : List Doc) (operation : Operation) :
    Decidable (Asked o contexts operation) :=
  inferInstanceAs (Decidable (_ = _))

/-- **The text asks for what was given exactly if no field and no value has a quote in it**, for
every order in which the contexts are gone through. -/
theorem asked_iff_unquoted (o : IterOrder) (contexts : List Doc) (operation : Operation)
    (hne : contexts ≠ []) (hcontexts : ∀ kwargs ∈ contexts, kwargs.items ≠ []) :
    Asked o contexts operation ↔ ∀ kwargs ∈ contexts, Unquoted kwargs.items := by
  set l := contexts.map (fun kwargs => o.order kwargs.items) with hl
  have htext : _query_constructor o contexts "context" operation
      = Text.join (" " ++ operation.text ++ " ") (l.map (contextText "context")) := by
    rw [_query_constructor, hl, List.map_map]
    rfl
  have hitem : ∀ kwargs ∈ l, ReadsBack (readContext "context") (fun _ => True) kwargs
      (contextText "context" kwargs) (Unquoted kwargs) := by
    intro kwargs hmem
    obtain ⟨c, hc, rfl⟩ := List.mem_map.mp hmem
    apply readContext_readsBack
    intro hnil
    have hperm := o.perm c.items
    rw [hnil] at hperm
    exact hcontexts c hc hperm.nil_eq.symm
  have hlength : l.length
      ≤ (Text.join (" " ++ operation.text ++ " ") (l.map (contextText "context"))).toList.length :=
    length_le_join (contextText_ne_empty "context") l
  have hend : expect (" " ++ operation.text ++ " ") [] = none := by
    cases operation <;> rfl
  have hread := readSeparated_readsBack hitem (fun _ => trivial) (by simpa [hl] using hne)
    hlength [] ⟨trivial, hend⟩
  rw [List.append_nil] at hread
  have hgood : (∀ kwargs ∈ l, Unquoted kwargs) ↔ ∀ kwargs ∈ contexts, Unquoted kwargs.items := by
    simp only [hl, List.forall_mem_map, Unquoted, IterOrder.mem_order]
  rw [Asked, htext, readClause, ← hgood]
  constructor
  · intro h
    split at h
    · rename_i l' heq
      rw [Option.some_inj.mp h] at heq
      exact ((hread []).mp heq).1
    · cases h
  · intro h
    rw [(hread []).mpr ⟨h, rfl⟩]

/-- The rows that a lookup finds are those that its text asks for. -/
theorem query_eq_of_asked {o : IterOrder} {contexts : List Doc} (h : Asked o contexts .or)
    (hcontexts : ∀ kwargs ∈ contexts, kwargs.items ≠ []) (db : Db) (t : String) :
    db.query o t contexts = .ok (o.order (db.rows.filter (fun r => db.isIn t r
      && (readClause "context" .or (_query_constructor o contexts "context" .or)).any
        (fun l => asksFor .or l r.context)))) := by
  have hnone : contexts.any (fun c => c.items.isEmpty) = false := by
    rw [List.any_eq_false]
    intro c hc hempty
    exact hcontexts c hc (List.isEmpty_iff.mp hempty)
  have hmeets : ∀ (c : Doc) (r : Row), (o.order c.items).all
      (fun p => r.context.lookup p.1 = some p.2) = Db.matchesContext c r := by
    intro c r
    exact Bool.eq_iff_iff.mpr (by simp [Db.matchesContext, IterOrder.mem_order])
  rw [Asked] at h
  rw [Db.query, hnone, h]
  simp only [Bool.false_eq_true, if_false, Option.any_some, asksFor, List.any_map,
    Function.comp_def, hmeets]
  rfl

/-- The name of a device. -/
def plainName : Doc := AList.insert "device" "rtr-core1" ∅

theorem asked_iff_unquoted_plainName : Asked IterOrder.stored [plainName] .and :=
  (asked_iff_unquoted IterOrder.stored [plainName] .and (by decide) (by decide)).mpr (by decide)

/-- The name of a device, with a quote in it. -/
def quotedName : Doc := AList.insert "device" "rtr-o'brien" ∅

theorem not_asked_quotedName : ¬ Asked IterOrder.stored [quotedName] .and := by
  decide

end Postgres
