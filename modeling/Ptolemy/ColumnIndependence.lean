/-
# The output columns of the gatherer

All definitions of a driver work on one dataset.  A column of the output is made from
the collected column of its reference alone when no definition before takes that
column away for good, and none after takes or changes the output column
(`column_independent`): within a group the copies see to the first for definitions
that share a reference.
-/
import Ptolemy.GathererSteps
import Ptolemy.GathererPivot

namespace Gatherer

open DriverMaps

variable {env : Env} {parent : Results} {ignore : List String}

/-! ## The column of a reference -/

/-- What a definition may do to the column of a reference for the next one to find it as it was:
not touch it, or have it as its own reference, so that it is given back; the maps may then write
it under its own name only, and add no index to it there. -/
def Lends (env : Env) (def' : String × DriverMaps.Item) (r : String) : Prop :=
  ¬ Touches env def' r
    ∨ (def'.2.ref = some r ∧ (∀ m ∈ def'.2.flat, ¬ Writes env m r)
      ∧ (def'.1 = r → ∀ m ∈ def'.2.flat, ValueWise env m))

/-- The column of a reference is as it was collected, `n` of the `total` definitions of the group
that want it are to come, and there is a copy where there are several. -/
structure Ready (c : Column) (r : String) (total n : ℕ) (w : Work) : Prop where
  column : ∃ d c', w.result = .dataset d ∧ d.lookup r = some c' ∧ Dict.Same c' c
  count : (w.wantedRefsCount.lookup r).getD 0 = n
  copied : 1 < total → ∃ c', w.wantedRefs.lookup r = some c' ∧ Dict.Same c' c

section Ready

variable {c : Column} {r : String} {total : ℕ} {w w' : Work} {def' : String × DriverMaps.Item}
  {rest : List (String × DriverMaps.Item)}

theorem items_ne_nil_of_same {c c' : Column} (h : Dict.Same c' c) (hne : c.items ≠ []) :
    c'.items ≠ [] := by
  obtain ⟨p, hp⟩ := List.exists_mem_of_ne_nil _ hne
  have hmem : p ∈ c'.items := Dict.mem_items.mpr ((h p.1).trans (Dict.mem_items.mp hp))
  exact List.ne_nil_of_mem hmem

/-- The copy laid over a column that has no other index is the copy. -/
theorem same_overlay {c c₁ copied : Column} (hcopied : Dict.Same copied c)
    (h : ∀ k, c.lookup k = none → c₁.lookup k = none) :
    Dict.Same (Dict.overlay c₁ copied) c := by
  intro k
  rw [Dict.lookup_overlay, hcopied k]
  cases hk : c.lookup k with
  | none => rw [Option.none_or, h k hk]
  | some v => rw [Option.some_or]

theorem Image.lookup_none {g : Value → Value → Except Exn (Option Value)} {c c' : Column}
    (h : Image g c c') {k : Value} (hk : c.lookup k = none) : c'.lookup k = none := by
  have hk' := h k
  rwa [hk] at hk'

/-- A definition with this reference takes the column, or works on it in its place, adding no
index. -/
theorem remap_lent {d : Dataset} {c₁ : Column} {out : DriverMaps.Data} (hc₁ : d.lookup r = some c₁)
    (href : def'.2.ref = some r) (hwrites : ∀ m ∈ def'.2.flat, ¬ Writes env m r)
    (hname : def'.1 = r → ∀ m ∈ def'.2.flat, ValueWise env m)
    (hout : remap env parent (.dataset d) def'.1 def'.2 = .ok out) :
    ∃ d', out = .dataset d'
      ∧ ∀ k, c₁.lookup k = none → ((d'.lookup r).getD ∅).lookup k = none := by
  by_cases hfield : def'.1 = r
  · obtain ⟨taken, htake, -⟩ := Except.bind_eq_ok.mp hout
    obtain ⟨d₁, rfl, ⟨rfl, -⟩ | ⟨r', -, hr', hne, -⟩⟩ := takeRef_cases htake
    · obtain ⟨d', c', rfl, hc', himage⟩ :=
        remap_image (hname hfield) hout htake (hfield ▸ hc₁)
      refine ⟨d', rfl, fun k hk => ?_⟩
      rw [← hfield, hc', Option.getD_some]
      exact Image.lookup_none himage hk
    · exact absurd ((Option.some.inj (hr'.symm.trans href)).trans hfield.symm) hne
  · obtain ⟨d', rfl, hnone⟩ := remap_taken href (Ne.symm hfield) hwrites hout
    refine ⟨d', rfl, fun k _ => ?_⟩
    rw [hnone]
    rfl

/-- **One definition before**: the column is ready for the next one. -/
theorem Ready.processDef (h : Ready c r total (wanted (def' :: rest) r) w) (hne : c.items ≠ [])
    (hlends : Lends env def' r) (htotal : wanted (def' :: rest) r ≤ total)
    (hmore : 0 < wanted rest r) (hstep : processDef env parent w def' = .ok w') :
    Ready c r total (wanted rest r) w' := by
  obtain ⟨d, c₁, hd, hc₁, hsame⟩ := h.column
  have hcount := h.count
  unfold wanted at hcount htotal
  rw [List.countP_cons] at hcount htotal
  rcases hlends with hx | ⟨href, hwrites, hname⟩
  · have href : def'.2.ref ≠ some r := fun href => hx (Or.inr (Or.inl href))
    rw [if_neg (by simpa using href)] at hcount
    obtain ⟨d', hd', hlook, hcount', hcopy⟩ := processDef_frame hx hd hstep
    refine ⟨⟨d', c₁, hd', hlook.trans hc₁, hsame⟩, ?_, ?_⟩
    · rw [hcount', hcount, Nat.add_zero, wanted]
    · rw [hcopy]
      exact h.copied
  · rw [if_pos (by simpa using href)] at hcount htotal
    unfold Gatherer.processDef at hstep
    obtain ⟨out, hout, hstep⟩ := Except.bind_eq_ok.mp hstep
    rw [hd] at hout
    simp only [href] at hstep
    obtain ⟨d', rfl, hindex⟩ := remap_lent hc₁ href hwrites hname hout
    unfold wanted at hmore
    obtain ⟨copied, hcopied, hcopysame⟩ := h.copied (by omega)
    obtain ⟨⟨d'', hd'', hback⟩, hcount', hcopy⟩ := countDown_back
      (w := { w with result := .dataset d' }) rfl (by simp only [hcount]; omega) hcopied
      (items_ne_nil_of_same hcopysame hne) hstep
    refine ⟨⟨d'', _, hd'', hback, same_overlay hcopysame fun k hk => ?_⟩, ?_, ?_⟩
    · exact hindex k ((hsame k).trans hk)
    · simp only [hcount', hcount, wanted]
      omega
    · rw [hcopy]
      exact h.copied

/-- The definitions before, by induction: another one that wants the column is to come. -/
theorem Ready.foldlM {earlier : List (String × DriverMaps.Item)}
    (h : Ready c r total (wanted (earlier ++ rest) r) w) (hne : c.items ≠ [])
    (hlends : ∀ d ∈ earlier, Lends env d r) (htotal : wanted (earlier ++ rest) r ≤ total)
    (hmore : 0 < wanted rest r)
    (hfold : earlier.foldlM (Gatherer.processDef env parent) w = .ok w') :
    Ready c r total (wanted rest r) w' := by
  refine (Except.foldlM_rest (I := fun l w₁ => Ready c r total (wanted (l ++ rest) r) w₁
      ∧ (∀ d ∈ l, Lends env d r) ∧ wanted (l ++ rest) r ≤ total) ?_ ⟨h, hlends, htotal⟩ hfold).1
  rintro d l w₁ w₂ ⟨hready, hl, hle⟩ hstep
  have hcons : wanted (l ++ rest) r ≤ wanted (d :: l ++ rest) r := by
    unfold wanted
    rw [List.cons_append, List.countP_cons]
    omega
  have hpos : 0 < wanted (l ++ rest) r := by
    unfold wanted at hmore ⊢
    rw [List.countP_append]
    omega
  exact ⟨hready.processDef hne (hl d List.mem_cons_self) hle hpos hstep,
    fun q hq => hl q (List.mem_cons_of_mem d hq), hcons.trans hle⟩

/-- **The definition itself**: its column is the image of the column that was collected. -/
theorem Ready.makes {f : String} {item : DriverMaps.Item}
    (h : Ready c r total (wanted ((f, item) :: rest) r) w) (href : item.ref = some r)
    (hmaps : ∀ m ∈ item.flat, ValueWise env m) (hlast : f = r → wanted rest r = 0)
    (hstep : Gatherer.processDef env parent w (f, item) = .ok w') :
    ∃ d' c', w'.result = .dataset d' ∧ d'.lookup f = some c'
      ∧ Image (newValues env item.flat) c c' := by
  obtain ⟨d, c₁, hd, hc₁, hsame⟩ := h.column
  have hcount := h.count
  unfold Gatherer.processDef at hstep
  obtain ⟨out, hout, hstep⟩ := Except.bind_eq_ok.mp hstep
  simp only [href] at hstep
  rw [hd] at hout
  -- whether it is renamed or not, the column is now under the name of the field
  have htaken : ∃ d₁, takeRef (.dataset d) f item = .ok (.dataset d₁) ∧ d₁.lookup f = some c₁ := by
    obtain ⟨taken, htake, -⟩ := Except.bind_eq_ok.mp hout
    obtain ⟨d₁, rfl, ⟨rfl, hnone⟩ | ⟨r', c', hr', -, hc', rfl⟩⟩ := takeRef_cases htake
    · refine ⟨d₁, htake, ?_⟩
      by_cases hfr : r = f
      · rw [← hfr, hc₁]
      · rw [hnone r href hfr] at hc₁
        cases hc₁
    · refine ⟨_, htake, ?_⟩
      rw [Option.some.inj (hr'.symm.trans href), hc₁] at hc'
      rw [AList.lookup_insert, hc']
  obtain ⟨d₁, htake, hlook⟩ := htaken
  obtain ⟨d', c', rfl, hc', himage⟩ := remap_image hmaps hout htake hlook
  have himage' : Image (newValues env item.flat) c c' := by
    intro k
    have hk := himage k
    rwa [hsame k] at hk
  by_cases hfr : f = r
  · have hone : (wanted ((f, item) :: rest) r : Int) = 1 := by
      have hzero := hlast hfr
      unfold wanted at hzero ⊢
      rw [List.countP_cons, hzero, if_pos (by simpa using href)]
      rfl
    have hresult := countDown_last (w := { w with result := .dataset d' })
      (hcount.trans hone) hstep
    exact ⟨d', c', hresult, hc', himage'⟩
  · obtain ⟨d'', hd'', hlook'', -⟩ := countDown_frame (w := { w with result := .dataset d' })
      rfl hfr hstep
    exact ⟨d'', c', hd'', hlook''.trans hc', himage'⟩

end Ready

/-! ## The output of a definition -/

/-- What the output has for a field: at each index of a column the value that the maps make of
the value there, as `φ` shows it, and nothing elsewhere. -/
def Shows (env : Env) (φ : Value → Value) (ms : List MapDef) (c : Column)
    (cells : Value → Option Value) : Prop :=
  ∀ k, match c.lookup k with
    | none => cells k = none
    | some v => ∃ w, newValues env ms k v = .ok w ∧ cells k = w.map φ

/-- **Column independence**: when `process` returns, the output for a definition with value-wise
maps is what the maps make of its collected column, in rows with the text `None` as null.  It
depends on no other definition, provided that those before lend the column of the reference,
within the group, or do not touch it, in other groups, and those after do not touch the column
of the field. -/
theorem column_independent {driver : Driver} {result : Dataset} {results : Results}
    {before after : List (String × Group)} {g f r : String} {G : Group}
    {earlier later : List (String × DriverMaps.Item)} {item : DriverMaps.Item} {c : Column}
    (hgroups : env.order.order driver.items = before ++ (g, G) :: after)
    (hdefs : G.defs = earlier ++ (f, item) :: later) (hg : g ∉ ignore)
    (href : item.ref = some r) (hmaps : ∀ m ∈ item.flat, ValueWise env m)
    (hclean : ∀ d ∈ G.defs, d.1 = f → d.2.clean = false)
    (hc : result.lookup r = some c) (hvalue : ∃ k v, c.lookup k = some v ∧ v ≠ .none)
    (hbefore : ∀ p ∈ before, p.1 ∉ ignore → ∀ d ∈ p.2.defs, ¬ Touches env d r)
    (hearlier : ∀ d ∈ earlier, Lends env d r) (hlater : ∀ d ∈ later, ¬ Touches env d f)
    (hafter : ∀ p ∈ after, p.1 ∉ ignore → ∀ d ∈ p.2.defs, ¬ Touches env d f)
    (h : process env parent ignore driver result = .ok results) :
    ∃ rows, results.lookup g = some rows
      ∧ Shows env (shown G.groupByKey) item.flat c (cell G.groupByKey rows f) := by
  obtain ⟨w, hrun, hpivot⟩ := Except.bind_eq_ok.mp h
  rw [hgroups, List.foldlM_append] at hrun
  obtain ⟨w₁, hrun₁, hrun⟩ := Except.bind_eq_ok.mp hrun
  rw [List.foldlM_cons] at hrun
  obtain ⟨w₂, hrun₂, hrun₃⟩ := Except.bind_eq_ok.mp hrun
  -- the groups before leave the column of the reference, and want it no more
  obtain ⟨d₁, hd₁, hlook₁, hcount₁⟩ := foldlM_processGroup_frame hbefore rfl hrun₁
  -- the group itself
  unfold processGroup at hrun₂
  rw [if_neg hg] at hrun₂
  obtain ⟨w₀, hcopy, hrun₂⟩ := Except.bind_eq_ok.mp hrun₂
  obtain ⟨hresult, hcount, hcopied⟩ := copyRefs_spec (w := { w₁ with
    wantedRefsCount := countRefs G.defs w₁.wantedRefsCount }) hd₁ hcopy
  have hcountG : ((countRefs G.defs w₁.wantedRefsCount).lookup r).getD 0 = wanted G.defs r := by
    rw [lookup_countRefs, hcount₁]
    exact zero_add _
  have hready : Ready c r (wanted G.defs r) (wanted G.defs r) w₀ := by
    refine ⟨⟨d₁, c, hresult.trans hd₁, hlook₁.trans hc, .refl c⟩, ?_, fun htwo => ?_⟩
    · rw [hcount, hcountG]
    · obtain ⟨c', hc', hcopy'⟩ := hcopied r (by simp only [hcountG]; omega)
      rw [hlook₁, hc] at hc'
      cases hc'
      exact ⟨c, hcopy', .refl c⟩
  have hne : c.items ≠ [] := by
    obtain ⟨k, v, hk, -⟩ := hvalue
    exact List.ne_nil_of_mem (Dict.mem_items.mpr hk)
  have hmine : 0 < wanted ((f, item) :: later) r := by
    unfold wanted
    rw [List.countP_cons, if_pos (by simpa using href)]
    omega
  rw [hdefs, List.foldlM_append] at hrun₂
  obtain ⟨w₃, hrun₂, hrun⟩ := Except.bind_eq_ok.mp hrun₂
  rw [List.foldlM_cons] at hrun
  obtain ⟨w₄, hmake, hrun₄⟩ := Except.bind_eq_ok.mp hrun
  rw [hdefs] at hready
  have hready₃ := hready.foldlM hne hearlier le_rfl hmine hrun₂
  obtain ⟨d₄, c', hd₄, hc', himage⟩ := hready₃.makes href hmaps (fun hfr => wanted_eq_zero
    (fun d hd hr => hlater d hd (Or.inr (Or.inl (hfr ▸ hr))))) hmake
  -- what comes after leaves the column of the field
  obtain ⟨d₂, hd₂, hlook₂, -⟩ := foldlM_processDef_frame hlater hd₄ hrun₄
  obtain ⟨d, hd, hlook, -⟩ := foldlM_processGroup_frame hafter hd₂ hrun₃
  have hmem : (g, G) ∈ env.order.order driver.items := by
    rw [hgroups]
    exact List.mem_append_right _ List.mem_cons_self
  have hfield : f ∈ G.defs.map Prod.fst := by
    rw [hdefs, List.map_append, List.map_cons]
    exact List.mem_append_right _ List.mem_cons_self
  have hwanted : f ∈ wantedFields ignore (env.order.order driver.items) :=
    List.mem_flatMap.mpr ⟨(g, G), List.mem_filter.mpr ⟨hmem, decide_eq_true hg⟩, hfield⟩
  rw [hd] at hpivot
  obtain ⟨rows, hrows, hgroup⟩ := lookup_pivotGroups (driver.nodup_order_keys env.order) hmem hpivot
  refine ⟨rows, hrows, fun k => ?_⟩
  have hleft : (Dict.restrict (fun f => decide (f ∈ wantedFields ignore
      (env.order.order driver.items))) d).lookup f = some c' := by
    rw [Dict.lookup_restrict, if_pos (decide_eq_true hwanted), hlook, hlook₂, hc']
  have hcell : cell G.groupByKey rows f k = (c'.lookup k).map (shown G.groupByKey) :=
    cell_pivotGroup hfield hclean hleft hgroup
  have hk := himage k
  cases hck : c.lookup k with
  | none =>
    rw [hck] at hk
    simp only
    rw [hcell, hk, Option.map_none]
  | some v =>
    rw [hck] at hk
    exact ⟨c'.lookup k, hk, hcell⟩

/-! ### The ports of a switch -/

/-- No expression matches, there are no functions, and no arithmetic is done. -/
def plainEnv : Env where
  search := fun _ _ => .ok false
  match? := fun _ _ => .ok none
  call := fun _ _ => none
  groupCall := fun _ d => (d, none)
  datasetCall := fun _ d => (d, none)
  divide := fun _ _ => none
  multiply := fun _ _ => none
  order := .stored

/-- The states of a port, by their numbers. -/
def statusItem : DriverMaps.Item where
  ref := some "ifOperStatus"
  maps := [.dict [.value_sub (.dict (Dict.ofList [(.int 1, .str "up"), (.int 2, .str "down")]))]]

/-- Two fields are made of one column. -/
def statusGroup : Group where
  groupByKey := true
  defs := [("oper_code", { ref := some "ifOperStatus" }), ("oper_status", statusItem)]

def nameGroup : Group where
  groupByKey := false
  defs := [("name", { ref := some "sysName" })]

def portDriver : Driver := Dict.ofList [("port", statusGroup), ("system", nameGroup)]

def statusColumn : Column := Dict.ofList [(.str "1", .int 1), (.str "2", .int 2)]

def portData : Dataset :=
  Dict.ofList [("ifOperStatus", statusColumn),
    ("sysName", Dict.ofList [(.str "0", .str "switch")])]

/-- The states of the ports of a switch. -/
theorem column_independent_ports :
    ∃ results, process plainEnv ∅ [] portDriver portData = .ok results
      ∧ ∃ rows, results.lookup "port" = some rows
        ∧ Shows plainEnv (shown true) statusItem.flat statusColumn
          (cell true rows "oper_status") := by
  have hok : (process plainEnv ∅ [] portDriver portData).toOption.isSome = true := by
    decide
  cases h : process plainEnv ∅ [] portDriver portData with
  | error e =>
    rw [h] at hok
    cases hok
  | ok results =>
    refine ⟨results, rfl, ?_⟩
    have hsplit : plainEnv.order.order portDriver.items
        = [("system", nameGroup)] ++ ("port", statusGroup) :: [] := rfl
    have hdefs : statusGroup.defs = [("oper_code", { ref := some "ifOperStatus" })]
        ++ ("oper_status", statusItem) :: [] := rfl
    refine column_independent hsplit hdefs List.not_mem_nil rfl ?_ ?_ rfl ?_ ?_ ?_ ?_ ?_ h
    · intro m hm
      have hm' : m ∈ [MapDef.value_sub (.dict
        (Dict.ofList [(.int 1, .str "up"), (.int 2, .str "down")]))] := hm
      rw [List.mem_singleton.mp hm']
      trivial
    · intro d hd _
      rcases List.mem_cons.mp hd with rfl | hd
      · rfl
      · rw [List.mem_singleton.mp hd]
        rfl
    · exact ⟨.str "1", .int 1, by decide, by decide⟩
    · rintro p hp - d hd hx
      rw [List.mem_singleton.mp hp] at hd
      rw [List.mem_singleton.mp hd] at hx
      rcases hx with hx | hx | ⟨m, hm, -⟩
      · exact absurd hx (by decide)
      · exact absurd hx (by decide)
      · cases hm
    · intro d hd
      rw [List.mem_singleton.mp hd]
      refine Or.inr ⟨rfl, fun m hm => (by cases hm), fun hname => absurd hname (by decide)⟩
    · exact fun d hd => absurd hd List.not_mem_nil
    · exact fun p hp => absurd hp List.not_mem_nil

/-- The output for a definition, were it what the maps make of the collected column in every
case. -/
def Independent (driver : Driver) (result : Dataset) (g f : String) (byKey : Bool)
    (ms : List MapDef) (c : Column) : Prop :=
  ∃ results rows, process plainEnv ∅ [] driver result = .ok results
    ∧ results.lookup g = some rows ∧ Shows plainEnv id ms c (cell byKey rows f)

def aliasItem : DriverMaps.Item := { ref := some "ifAlias" }

/-- The description of a port is a text. -/
def aliasColumn : Column := Dict.ofList [(.str "1", .str "None")]

/-- One group of the ports, or two that use the same column. -/
def aliasDriver (names : List String) : Driver :=
  Dict.ofList (names.map (fun g => (g, ⟨true, [("alias", aliasItem)]⟩)))

/-- The text `None` is no text in rows, and the column that two groups use is gone for the
second one. -/
theorem not_column_independent :
    ¬ Independent (aliasDriver ["port"]) (Dict.ofList [("ifAlias", aliasColumn)]) "port" "alias"
        true aliasItem.flat aliasColumn
      ∧ ¬ Independent (aliasDriver ["port", "peer"]) (Dict.ofList [("ifAlias", aliasColumn)])
        "port" "alias" true aliasItem.flat aliasColumn := by
  constructor
  · rintro ⟨results, rows, hprocess, hrows, hshows⟩
    have hcell : ((process plainEnv ∅ [] (aliasDriver ["port"])
        (Dict.ofList [("ifAlias", aliasColumn)])).toOption.bind (fun results =>
          results.lookup "port")).bind (fun rows => cell true rows "alias" (.str "1"))
        = some .none := by decide
    rw [hprocess, show (Except.ok results : Except Exn Results).toOption = some results from rfl,
      Option.bind_some, hrows, Option.bind_some] at hcell
    obtain ⟨w, hw, hshown⟩ := hshows (.str "1")
    have hnew : newValues plainEnv aliasItem.flat (.str "1") (.str "None")
        = .ok (some (.str "None")) := rfl
    obtain rfl := Except.ok.inj (hnew.symm.trans hw)
    rw [hcell] at hshown
    exact absurd hshown (by decide)
  · rintro ⟨results, rows, hprocess, -⟩
    have hnone : (process plainEnv ∅ [] (aliasDriver ["port", "peer"])
        (Dict.ofList [("ifAlias", aliasColumn)])).toOption.isSome = false := by decide
    rw [hprocess] at hnone
    cases hnone

end Gatherer
