/-
# Merging columns

`merge_defs` collects the entries of several columns that are not excluded and puts them into
one column.  Where exactly one source contributes, its entries replace the column that
was there; otherwise they are laid over it.  The two agree exactly where the source
has every index of the old column (`merged_iff`).
-/
import Ptolemy.DriverColumns

namespace DriverMaps

open Driver (valueEq)

variable {env : Env} {data : Dataset} {name : String} {defn : Dict String (List Value)}

/-- Whether a source with these values excludes a value: the null value where it lists none. -/
def excluded (fields : List Value) (v : Value) : Bool :=
  if fields.isEmpty then decide (v = .none) else fields.any (valueEq v)

/-- The source `k` contributes the value `j` at the index `i`. -/
def Kept (data : Dataset) (defn : Dict String (List Value)) (k : String) (i j : Value) : Prop :=
  ∃ fields, defn.lookup k = some fields
    ∧ ((data.lookup k).getD ∅).lookup i = some j ∧ excluded fields j = false

/-- The column `name` is the one before overlaid by what the sources contribute, and every other
column is as before. -/
structure Merged (data : Dataset) (name : String) (defn : Dict String (List Value))
    (data' : Dataset) : Prop where
  kept : ∀ k i j, Kept data defn k i j → ((data'.lookup name).getD ∅).lookup i = some j
  rest : ∀ i, (∀ k j, ¬ Kept data defn k i j) →
    ((data'.lookup name).getD ∅).lookup i = ((data.lookup name).getD ∅).lookup i
  frame : ∀ x, x ≠ name → data'.lookup x = data.lookup x

/-- If exactly one source contributes, it does at every index of the column before. -/
def Covered (data : Dataset) (name : String) (defn : Dict String (List Value)) : Prop :=
  ∀ k, (∃ i j, Kept data defn k i j) → (∀ k' i j, Kept data defn k' i j → k' = k) →
    ∀ i ∈ (data.lookup name).getD ∅, ∃ j, Kept data defn k i j

/-! ## The contributions -/

theorem keptEntries_eq_ofList (k : String) (fields : List Value) :
    keptEntries env data k fields
      = Dict.ofList ((env.order.order ((data.lookup k).getD ∅).items).filter
        (fun p => !excluded fields p.2)) := by
  unfold keptEntries Dict.ofList
  rw [List.foldl_filter]
  congr 1
  funext this p
  show (if excluded fields p.2 then this else AList.insert p.1 p.2 this) = _
  cases excluded fields p.2 <;> rfl

variable (env) in
theorem lookup_keptEntries {k : String} {fields : List Value} {i j : Value} :
    (keptEntries env data k fields).lookup i = some j
      ↔ ((data.lookup k).getD ∅).lookup i = some j ∧ excluded fields j = false := by
  have hnodup : (((env.order.order ((data.lookup k).getD ∅).items).filter
      (fun p => !excluded fields p.2)).map Prod.fst).Nodup := by
    exact (Dict.nodup_order_keys env.order _).sublist (List.filter_sublist.map Prod.fst)
  rw [keptEntries_eq_ofList, Dict.lookup_ofList hnodup, List.mem_filter, env.order.mem_order,
    Dict.mem_items, Bool.not_eq_true']

/-- The contributions of the sources that have one, in the order in which they are collected. -/
def contributions (env : Env) (data : Dataset) (defn : Dict String (List Value)) : List Column :=
  ((env.order.order defn.items).map (fun p => keptEntries env data p.1 p.2)).filter
    (fun c => !c.items.isEmpty)

/-- A contribution is what a source keeps, and is not empty. -/
theorem mem_contributions {c : Column} : c ∈ contributions env data defn
    ↔ ∃ k fields, defn.lookup k = some fields ∧ c = keptEntries env data k fields
      ∧ ∃ i j, Kept data defn k i j := by
  unfold contributions
  rw [List.mem_filter, List.mem_map]
  constructor
  · rintro ⟨⟨⟨k, fields⟩, hmem, rfl⟩, hne⟩
    have hdefn := Dict.mem_items.mp (env.order.mem_order.mp hmem)
    obtain ⟨⟨i, j⟩, hij⟩ : ∃ p, p ∈ (keptEntries env data k fields).items := by
      cases hitems : (keptEntries env data k fields).items with
      | nil =>
        simp only [hitems] at hne
        cases hne
      | cons p l => exact ⟨p, List.mem_cons_self⟩
    have hkept := (lookup_keptEntries env).mp (Dict.mem_items.mp hij)
    exact ⟨k, fields, hdefn, rfl, i, j, fields, hdefn, hkept⟩
  · rintro ⟨k, fields, hdefn, rfl, i, j, fields', hdefn', hij⟩
    obtain rfl := Option.some.inj (hdefn.symm.trans hdefn')
    refine ⟨⟨(k, fields), env.order.mem_order.mpr (Dict.mem_items.mpr hdefn), rfl⟩, ?_⟩
    have hmem := Dict.mem_items.mpr ((lookup_keptEntries env).mpr hij)
    cases hitems : (keptEntries env data k fields).items with
    | nil =>
      rw [hitems] at hmem
      exact absurd hmem List.not_mem_nil
    | cons p l => rfl

variable (env) in
/-- An entry of a contribution is one that a source contributes. -/
theorem kept_iff_contributions {i j : Value} :
    (∃ c ∈ contributions env data defn, c.lookup i = some j) ↔ ∃ k, Kept data defn k i j := by
  constructor
  · rintro ⟨c, hc, hij⟩
    obtain ⟨k, fields, hdefn, rfl, -⟩ := mem_contributions.mp hc
    exact ⟨k, fields, hdefn, (lookup_keptEntries env).mp hij⟩
  · rintro ⟨k, fields, hdefn, hij⟩
    refine ⟨keptEntries env data k fields, ?_, (lookup_keptEntries env).mpr hij⟩
    exact mem_contributions.mpr ⟨k, fields, hdefn, rfl, i, j, fields, hdefn, hij⟩

/-! ## The merging path -/

variable (name) in
/-- Entries put one by one into a column, which is made when it is missing. -/
theorem foldl_into_column (ps : List (Value × Value)) (data : Dataset) :
    ((ps.foldl (fun data p =>
        AList.insert name (AList.insert p.1 p.2 ((data.lookup name).getD ∅)) data) data).lookup
          name).getD ∅ = ps.foldl (fun c p => AList.insert p.1 p.2 c) ((data.lookup name).getD ∅)
      ∧ ∀ x, x ≠ name → (ps.foldl (fun data p =>
        AList.insert name (AList.insert p.1 p.2 ((data.lookup name).getD ∅)) data) data).lookup x
          = data.lookup x := by
  induction ps generalizing data with
  | nil => exact ⟨rfl, fun _ _ => rfl⟩
  | cons p ps ih =>
    obtain ⟨hcol, hframe⟩ :=
      ih (AList.insert name (AList.insert p.1 p.2 ((data.lookup name).getD ∅)) data)
    rw [AList.lookup_insert, Option.getD_some] at hcol
    constructor
    · exact hcol
    · intro x hx
      rw [List.foldl_cons, hframe x hx, AList.lookup_insert_ne hx]

/-- No two sources contribute at the same index. -/
def DisjointSources (data : Dataset) (defn : Dict String (List Value)) : Prop :=
  ∀ k k' i j j', Kept data defn k i j → Kept data defn k' i j' → k = k'

theorem Kept.value_unique {k : String} {i j j' : Value} (h : Kept data defn k i j)
    (h' : Kept data defn k i j') : j = j' := by
  obtain ⟨_, -, hj, -⟩ := h
  obtain ⟨_, -, hj', -⟩ := h'
  exact Option.some.inj (hj.symm.trans hj')

/-- The loop over the contributions. -/
theorem merged_loop (hdisjoint : DisjointSources data defn) :
    Merged data name defn ((env.order.order (contributions env data defn)).foldl
      (fun data c => (env.order.order c.items).foldl (fun data p =>
        AList.insert name (AList.insert p.1 p.2 ((data.lookup name).getD ∅)) data) data) data) := by
  let ps := (env.order.order (contributions env data defn)).flatMap
    (fun c => env.order.order c.items)
  have hps : ∀ i j, (i, j) ∈ ps ↔ ∃ k, Kept data defn k i j := by
    intro i j
    rw [← kept_iff_contributions env, List.mem_flatMap]
    constructor
    · rintro ⟨c, hc, hij⟩
      exact ⟨c, env.order.mem_order.mp hc, Dict.mem_items.mp (env.order.mem_order.mp hij)⟩
    · rintro ⟨c, hc, hij⟩
      exact ⟨c, env.order.mem_order.mpr hc, env.order.mem_order.mpr (Dict.mem_items.mpr hij)⟩
  rw [← List.foldl_flatMap]
  obtain ⟨hcol, hframe⟩ := foldl_into_column name ps data
  refine ⟨fun k i j hk => ?_, fun i hnot => ?_, hframe⟩
  · rw [hcol]
    rcases Dict.lookup_foldl_insert_cases ps ((data.lookup name).getD ∅) i with
      ⟨j', hj', hlook⟩ | ⟨hnot, -⟩
    · obtain ⟨k', hk'⟩ := (hps i j').mp hj'
      obtain rfl := hdisjoint k k' i j j' hk hk'
      rw [hk.value_unique hk']
      exact hlook
    · exact absurd ((hps i j).mpr ⟨k, hk⟩) (hnot j)
  · rw [hcol]
    rcases Dict.lookup_foldl_insert_cases ps ((data.lookup name).getD ∅) i with
      ⟨j, hj, -⟩ | ⟨-, hlook⟩
    · obtain ⟨k, hk⟩ := (hps i j).mp hj
      exact absurd hk (hnot k j)
    · exact hlook

/-! ## The replacing path -/

/-- A single source that contributes is the only contribution. -/
theorem contributions_of_single {k : String} (hk : ∃ i j, Kept data defn k i j)
    (hone : ∀ k' i j, Kept data defn k' i j → k' = k) :
    ∃ c, contributions env data defn = [c] := by
  obtain ⟨i, j, fields, hdefn, hij⟩ := hk
  -- the sources themselves, which have distinct names
  let sources := (env.order.order defn.items).filter
    (fun p => !(keptEntries env data p.1 p.2).items.isEmpty)
  have hmap : contributions env data defn = sources.map (fun p => keptEntries env data p.1 p.2) := by
    unfold contributions
    rw [List.filter_map]
    rfl
  have hnodup : sources.Nodup := by
    have hall : (env.order.order defn.items).Nodup := (defn.nodup_order_keys env.order).of_map
    exact hall.filter _
  have hmem : ∀ p ∈ sources, p = (k, fields) := by
    rintro ⟨k', fields'⟩ hp
    obtain ⟨hitem, hne⟩ := List.mem_filter.mp hp
    have hdefn' := Dict.mem_items.mp (env.order.mem_order.mp hitem)
    have hcontributes : keptEntries env data k' fields' ∈ contributions env data defn := by
      rw [hmap]
      exact List.mem_map_of_mem (f := fun p : String × List Value => keptEntries env data p.1 p.2) hp
    have hentries : (keptEntries env data k' fields').items ≠ [] := by
      intro hnil
      simp only [hnil] at hne
      cases hne
    obtain ⟨⟨i', j'⟩, hij'⟩ := List.exists_mem_of_ne_nil _ hentries
    have hkept : Kept data defn k' i' j' :=
      ⟨fields', hdefn', (lookup_keptEntries env).mp (Dict.mem_items.mp hij')⟩
    obtain rfl := hone k' i' j' hkept
    rw [Option.some.inj (hdefn'.symm.trans hdefn)]
  have hthere : (k, fields) ∈ sources := by
    refine List.mem_filter.mpr ⟨env.order.mem_order.mpr (Dict.mem_items.mpr hdefn), ?_⟩
    have hentry := Dict.mem_items.mpr ((lookup_keptEntries env).mpr hij)
    dsimp only
    cases hitems : (keptEntries env data k fields).items with
    | nil =>
      rw [hitems] at hentry
      exact absurd hentry List.not_mem_nil
    | cons p l => rfl
  have hsingle : sources = [(k, fields)] := by
    refine List.perm_singleton.mp ?_
    rw [List.perm_ext_iff_of_nodup hnodup (List.nodup_singleton _)]
    intro p
    rw [List.mem_singleton]
    exact ⟨hmem p, fun hp => hp ▸ hthere⟩
  exact ⟨_, by rw [hmap, hsingle, List.map_singleton]⟩

theorem process_single {c : Column} (hc : contributions env data defn = [c]) :
    _process_by_merge_defs env data name defn = AList.insert name c data := by
  unfold contributions at hc
  unfold _process_by_merge_defs
  rw [hc]

theorem process_loop (hnot : ∀ c, contributions env data defn ≠ [c]) :
    _process_by_merge_defs env data name defn
      = (env.order.order (contributions env data defn)).foldl (fun data c =>
        (env.order.order c.items).foldl (fun data p => AList.insert name
          (AList.insert p.1 p.2 ((data.lookup name).getD ∅)) data) data) data := by
  unfold contributions at hnot ⊢
  unfold _process_by_merge_defs
  dsimp only
  split
  · next c hc => exact absurd hc (hnot c)
  · rfl

/-- **Merging**: the column is the one before overlaid by what the sources contribute exactly
where a single source that contributes does at every index of the column before. -/
theorem merged_iff (hdisjoint : DisjointSources data defn) :
    Merged data name defn (_process_by_merge_defs env data name defn)
      ↔ Covered data name defn := by
  by_cases hsingle : ∃ c, contributions env data defn = [c]
  · obtain ⟨c, hc⟩ := hsingle
    have hcol : ((AList.insert name c data).lookup name).getD ∅ = c := by
      rw [AList.lookup_insert, Option.getD_some]
    have hkept : ∀ i j, c.lookup i = some j ↔ ∃ k, Kept data defn k i j := by
      intro i j
      rw [← kept_iff_contributions env, hc]
      simp only [List.mem_singleton, exists_eq_left]
    obtain ⟨k, fields, hdefn, hck, hcontributes⟩ :=
      mem_contributions.mp (hc ▸ List.mem_singleton_self c)
    have honly : ∀ k' i j, Kept data defn k' i j → k' = k := by
      rintro k' i j hk'
      have hlook := (hkept i j).mpr ⟨k', hk'⟩
      rw [hck] at hlook
      exact hdisjoint k' k i j j hk' ⟨fields, hdefn, (lookup_keptEntries env).mp hlook⟩
    rw [process_single hc]
    constructor
    · intro hmerged k' hk' honly' i hi
      by_contra hnot
      have hrest : ∀ k'' j, ¬ Kept data defn k'' i j := by
        intro k'' j hk''
        obtain rfl := honly' k'' i j hk''
        exact hnot ⟨j, hk''⟩
      have hlook := hmerged.rest i hrest
      rw [hcol] at hlook
      obtain ⟨j, hj⟩ := Dict.mem_iff_lookup.mp hi
      obtain ⟨k'', hk''⟩ := (hkept i j).mp (hlook.trans hj)
      exact hrest k'' j hk''
    · intro hcovered
      refine ⟨fun k' i j hk' => ?_, fun i hnot => ?_, fun x hx => AList.lookup_insert_ne hx⟩
      · rw [hcol]
        exact (hkept i j).mpr ⟨k', hk'⟩
      · rw [hcol]
        have hnone : c.lookup i = none := by
          cases hlook : c.lookup i with
          | none => rfl
          | some j =>
            obtain ⟨k', hk'⟩ := (hkept i j).mp hlook
            exact absurd hk' (hnot k' j)
        have hmissing : i ∉ (data.lookup name).getD ∅ := by
          intro hi
          obtain ⟨j, hj⟩ := hcovered k hcontributes honly i hi
          exact hnot k j hj
        rw [hnone, AList.lookup_eq_none.mpr hmissing]
  · rw [process_loop (fun c hc => hsingle ⟨c, hc⟩)]
    refine iff_of_true (merged_loop hdisjoint) (fun k hk honly => ?_)
    exact absurd (contributions_of_single hk honly) hsingle

/-! The names of ports, from two columns. -/

/-- Only the interface has a name, and the column has one of another port. -/
def namesData : Dataset :=
  Dict.ofList [("name", Dict.ofList [(.str "1", .str "uplink")]),
    ("ifName", Dict.ofList [(.str "2", .str "Gi0/2")]),
    ("portName", Dict.ofList [(.str "2", .none)])]

def namesDefn : Dict String (List Value) := Dict.ofList [("ifName", []), ("portName", [])]

/-- The name of the other port is known here. -/
def knownData : Dataset :=
  Dict.ofList [("name", Dict.ofList [(.str "2", .str "uplink")]),
    ("ifName", Dict.ofList [(.str "1", .str "Gi0/1"), (.str "2", .str "Gi0/2")]),
    ("portName", Dict.ofList [(.str "2", .none)])]

/-- Only `ifName` contributes. -/
theorem kept_names {data : Dataset} (hdata : data = namesData ∨ data = knownData) {k : String}
    {i j : Value} (h : Kept data namesDefn k i j) :
    k = "ifName" ∧ ((data.lookup "ifName").getD ∅).lookup i = some j := by
  obtain ⟨fields, hfields, hij, hexcluded⟩ := h
  have hsources : ∀ p ∈ namesDefn.items, p.2 = [] ∧ (p.1 = "ifName" ∨ p.1 = "portName") := by
    decide
  obtain ⟨rfl, rfl | rfl⟩ := hsources (k, fields) (Dict.mem_items.mpr hfields)
  · exact ⟨rfl, hij⟩
  · have hport : (data.lookup "portName").getD ∅ = Dict.ofList [(.str "2", .none)] := by
      rcases hdata with rfl | rfl <;> rfl
    have hnull : ∀ p ∈ (Dict.ofList [(Value.str "2", Value.none)]).items, p.2 = .none := by decide
    obtain rfl : j = .none := hnull (i, j) (Dict.mem_items.mpr (hport ▸ hij))
    cases hexcluded

/-- The column is overlaid by the names of both ports. -/
theorem merged_iff_known :
    Merged knownData "name" namesDefn
      (_process_by_merge_defs bareEnv knownData "name" namesDefn) := by
  have hindexes : ∀ p ∈ ((knownData.lookup "name").getD ∅).items, p.1 = .str "2" := by decide
  refine (merged_iff (fun k k' i j j' hk hk' => ?_)).mpr (fun k hk _ i hi => ?_)
  · exact (kept_names (Or.inr rfl) hk).1.trans (kept_names (Or.inr rfl) hk').1.symm
  · obtain ⟨i', j', hk⟩ := hk
    obtain ⟨rfl, -⟩ := kept_names (Or.inr rfl) hk
    obtain ⟨v, hv⟩ := Dict.mem_iff_lookup.mp hi
    obtain rfl : i = .str "2" := hindexes (i, v) (Dict.mem_items.mpr hv)
    exact ⟨.str "Gi0/2", [], by rfl, by rfl, by rfl⟩

/-- The name of the other port is lost. -/
theorem not_merged_names :
    ¬ Merged namesData "name" namesDefn
      (_process_by_merge_defs bareEnv namesData "name" namesDefn) := by
  intro h
  have hrest := h.rest (.str "1")
    (fun k j hk => Option.some_ne_none j (kept_names (Or.inl rfl) hk).2.symm)
  exact absurd hrest (by decide)

end DriverMaps
