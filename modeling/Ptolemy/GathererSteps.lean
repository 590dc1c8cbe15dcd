/-
# The steps of the gatherer

* `lookup_countRefs`, `copyRefs_spec` : the references of a group before its definitions are
  run;
* `countDown_*` : giving a column back;
* `processDef_frame`, `processGroup_frame` : what a definition or a group does not touch.
-/
import Ptolemy.GathererProcess
import Ptolemy.DriverColumns

namespace Gatherer

open DriverMaps

variable {env : Env} {parent : Results} {ignore : List String}

/-! ## Counting and copying references -/

/-- How many definitions want a reference. -/
def wanted (defs : List (String × DriverMaps.Item)) (r : String) : ℕ :=
  defs.countP (fun d => decide (d.2.ref = some r))

theorem lookup_countRefs (defs : List (String × DriverMaps.Item)) (count : Dict String Int)
    (r : String) : ((countRefs defs count).lookup r).getD 0
      = (count.lookup r).getD 0 + wanted defs r := by
  induction defs generalizing count with
  | nil =>
    show (count.lookup r).getD 0 = _
    rw [wanted, List.countP_nil]
    omega
  | cons d defs ih =>
    unfold countRefs wanted at ih ⊢
    rw [List.foldl_cons, ih, List.countP_cons]
    cases hd : d.2.ref with
    | none =>
      rw [if_neg (by simp)]
      simp only
      omega
    | some r' =>
      simp only [Dict.lookup_insert_eq]
      by_cases hr : r = r'
      · rw [if_pos hr, if_pos (by simp [hr]), Option.getD_some, hr]
        omega
      · rw [if_neg hr, if_neg (by simp [Ne.symm hr])]
        omega

theorem wanted_eq_zero {defs : List (String × DriverMaps.Item)} {r : String}
    (h : ∀ d ∈ defs, d.2.ref ≠ some r) : wanted defs r = 0 := by
  unfold wanted
  rw [List.countP_eq_zero]
  intro d hd hr
  exact h d hd (of_decide_eq_true hr)

/-- Copying leaves the dataset alone, and copies every column that is wanted more than once. -/
theorem copyRefs_spec {w w' : Work} {d : Dataset} (hd : w.result = .dataset d)
    (h : copyRefs env w = .ok w') :
    w'.result = w.result ∧ w'.wantedRefsCount = w.wantedRefsCount
      ∧ ∀ r, 1 < (w.wantedRefsCount.lookup r).getD 0 →
        ∃ c, d.lookup r = some c ∧ w'.wantedRefs.lookup r = some c := by
  set l := env.order.order w.wantedRefsCount.items with hl
  -- what has been gone through, with `rest` to go
  let I : List (String × Int) → Work → Prop := fun rest w₁ =>
    w₁.result = w.result ∧ w₁.wantedRefsCount = w.wantedRefsCount
      ∧ ∃ first, l = first ++ rest ∧ ∀ p ∈ first, 1 < p.2 →
        ∃ c, d.lookup p.1 = some c ∧ w₁.wantedRefs.lookup p.1 = some c
  have hstart : I l w := ⟨rfl, rfl, [], rfl, fun p hp => absurd hp List.not_mem_nil⟩
  have hend : I [] w' := by
    unfold copyRefs at h
    refine Except.foldlM_rest (I := I) ?_ hstart h
    rintro p rest w₁ w₂ ⟨hresult, hcount, first, hfirst, hcopied⟩ hstep
    have hsplit : l = (first ++ [p]) ++ rest := by rw [hfirst, List.append_assoc]; rfl
    split_ifs at hstep with hp
    · obtain ⟨o, ho, hstep⟩ := Except.bind_eq_ok.mp hstep
      rw [hresult, hd] at ho
      cases o with
      | none => cases hstep
      | some c =>
        cases hstep
        have hc : d.lookup p.1 = some c := Except.ok.inj ho
        refine ⟨hresult, hcount, _, hsplit, fun q hq hwanted => ?_⟩
        simp only [Dict.lookup_insert_eq]
        rcases List.mem_append.mp hq with hq | hq
        · obtain ⟨c', hc', hcopy⟩ := hcopied q hq hwanted
          refine ⟨c', hc', ?_⟩
          split_ifs with heq
          · rw [← hc, ← heq, hc']
          · exact hcopy
        · rw [List.mem_singleton.mp hq]
          exact ⟨c, hc, if_pos rfl⟩
    · cases hstep
      refine ⟨hresult, hcount, _, hsplit, fun q hq hwanted => ?_⟩
      rcases List.mem_append.mp hq with hq | hq
      · exact hcopied q hq hwanted
      · rw [List.mem_singleton.mp hq] at hwanted
        exact absurd hwanted hp
  obtain ⟨hresult, hcount, first, hfirst, hcopied⟩ := hend
  refine ⟨hresult, hcount, fun r hr => ?_⟩
  cases hlook : w.wantedRefsCount.lookup r with
  | none =>
    rw [hlook] at hr
    exact absurd hr (by decide)
  | some n =>
    rw [hlook] at hr
    have hmem : (r, n) ∈ l := env.order.mem_order.mpr (Dict.mem_items.mpr hlook)
    rw [hfirst, List.append_nil] at hmem
    exact hcopied (r, n) hmem hr

/-- Counting a reference down leaves other columns and other counts alone. -/
theorem countDown_frame {w w' : Work} {r x : String} {d : Dataset} (hd : w.result = .dataset d)
    (hx : x ≠ r) (h : countDown w r = .ok w') :
    ∃ d', w'.result = .dataset d' ∧ d'.lookup x = d.lookup x
      ∧ w'.wantedRefsCount.lookup x = w.wantedRefsCount.lookup x
      ∧ w'.wantedRefs = w.wantedRefs := by
  unfold countDown at h
  simp only at h
  split_ifs at h with hn
  · cases hcopy : w.wantedRefs.lookup r with
    | none =>
      simp only [hcopy] at h
      cases h
    | some copied =>
      simp only [hcopy, hd, giveBack] at h
      split_ifs at h <;> cases h
      · exact ⟨d, rfl, rfl, AList.lookup_insert_ne hx, rfl⟩
      · exact ⟨_, rfl, AList.lookup_insert_ne hx, AList.lookup_insert_ne hx, rfl⟩
  · cases h
    exact ⟨d, hd, rfl, AList.lookup_insert_ne hx, rfl⟩

/-- A reference that is not wanted any more is not given back. -/
theorem countDown_last {w w' : Work} {r : String}
    (hn : (w.wantedRefsCount.lookup r).getD 0 = 1) (h : countDown w r = .ok w') :
    w'.result = w.result := by
  unfold countDown at h
  simp only [hn, sub_self, lt_irrefl, if_false] at h
  cases h
  rfl

/-- A reference that is still wanted is given back. -/
theorem countDown_back {w w' : Work} {r : String} {d : Dataset} {copied : Column}
    (hd : w.result = .dataset d) (hn : 1 < (w.wantedRefsCount.lookup r).getD 0)
    (hcopy : w.wantedRefs.lookup r = some copied) (hne : copied.items ≠ [])
    (h : countDown w r = .ok w') :
    (∃ d', w'.result = .dataset d'
        ∧ d'.lookup r = some (Dict.overlay ((d.lookup r).getD ∅) copied))
      ∧ (w'.wantedRefsCount.lookup r).getD 0 = (w.wantedRefsCount.lookup r).getD 0 - 1
      ∧ w'.wantedRefs = w.wantedRefs := by
  unfold countDown at h
  simp only at h
  rw [if_pos (by omega)] at h
  simp only [hcopy, hd, giveBack] at h
  rw [if_neg (by rwa [List.isEmpty_iff])] at h
  cases h
  refine ⟨⟨_, rfl, AList.lookup_insert _⟩, ?_, rfl⟩
  rw [AList.lookup_insert, Option.getD_some]

/-! ## What is not touched -/

/-- **The frame of a definition** of a group. -/
theorem processDef_frame {w w' : Work} {def' : String × DriverMaps.Item} {x : String} {d : Dataset}
    (hx : ¬ Touches env def' x) (hd : w.result = .dataset d)
    (h : processDef env parent w def' = .ok w') :
    ∃ d', w'.result = .dataset d' ∧ d'.lookup x = d.lookup x
      ∧ w'.wantedRefsCount.lookup x = w.wantedRefsCount.lookup x
      ∧ w'.wantedRefs = w.wantedRefs := by
  unfold processDef at h
  obtain ⟨out, hout, h⟩ := Except.bind_eq_ok.mp h
  rw [hd] at hout
  obtain ⟨d₁, rfl, hlook⟩ := remap_frame hx hout
  cases href : def'.2.ref with
  | none =>
    simp only [href] at h
    cases h
    exact ⟨d₁, rfl, hlook, rfl, rfl⟩
  | some r =>
    simp only [href] at h
    have hne : x ≠ r := fun heq => hx (Or.inr (Or.inl (by rw [href, heq])))
    obtain ⟨d', hd', hlook', hcount, hcopy⟩ := countDown_frame rfl hne h
    exact ⟨d', hd', hlook'.trans hlook, hcount, hcopy⟩

theorem foldlM_processDef_frame {defs : List (String × DriverMaps.Item)} {w w' : Work} {x : String}
    {d : Dataset} (hx : ∀ def' ∈ defs, ¬ Touches env def' x) (hd : w.result = .dataset d)
    (h : defs.foldlM (processDef env parent) w = .ok w') :
    ∃ d', w'.result = .dataset d' ∧ d'.lookup x = d.lookup x
      ∧ w'.wantedRefsCount.lookup x = w.wantedRefsCount.lookup x := by
  refine (Except.foldlM_rest (I := fun rest w₁ => (∀ def' ∈ rest, ¬ Touches env def' x)
      ∧ ∃ d', w₁.result = .dataset d' ∧ d'.lookup x = d.lookup x
        ∧ w₁.wantedRefsCount.lookup x = w.wantedRefsCount.lookup x) ?_
    ⟨hx, d, hd, rfl, rfl⟩ h).2
  rintro def' rest w₁ w₂ ⟨hrest, d₁, hd₁, hlook, hcount⟩ hstep
  obtain ⟨d₂, hd₂, hlook₂, hcount₂, -⟩ :=
    processDef_frame (hrest def' List.mem_cons_self) hd₁ hstep
  exact ⟨fun q hq => hrest q (List.mem_cons_of_mem def' hq), d₂, hd₂, hlook₂.trans hlook,
    hcount₂.trans hcount⟩

/-- **The frame of a group**: the columns that none of its definitions touches, if it is not
ignored, and the counts of references that none of them has. -/
theorem processGroup_frame {w w' : Work} {g : String × Group} {x : String} {d : Dataset}
    (hx : g.1 ∉ ignore → ∀ def' ∈ g.2.defs, ¬ Touches env def' x) (hd : w.result = .dataset d)
    (h : processGroup env parent ignore w g = .ok w') :
    ∃ d', w'.result = .dataset d' ∧ d'.lookup x = d.lookup x
      ∧ (w'.wantedRefsCount.lookup x).getD 0 = (w.wantedRefsCount.lookup x).getD 0 := by
  unfold processGroup at h
  split_ifs at h with hg
  · cases h
    exact ⟨d, hd, rfl, rfl⟩
  · obtain ⟨w₁, hcopy, h⟩ := Except.bind_eq_ok.mp h
    obtain ⟨hresult, hcount, -⟩ := copyRefs_spec (w := { w with
      wantedRefsCount := countRefs g.2.defs w.wantedRefsCount }) hd hcopy
    obtain ⟨d', hd', hlook, hcount'⟩ := foldlM_processDef_frame (hx hg) (hresult.trans hd) h
    refine ⟨d', hd', hlook, ?_⟩
    have hnone : ∀ def' ∈ g.2.defs, def'.2.ref ≠ some x :=
      fun def' hdef href => hx hg def' hdef (Or.inr (Or.inl href))
    rw [hcount', hcount, lookup_countRefs, wanted_eq_zero hnone]
    omega

theorem foldlM_processGroup_frame {gs : List (String × Group)} {w w' : Work} {x : String}
    {d : Dataset} (hx : ∀ g ∈ gs, g.1 ∉ ignore → ∀ def' ∈ g.2.defs, ¬ Touches env def' x)
    (hd : w.result = .dataset d) (h : gs.foldlM (processGroup env parent ignore) w = .ok w') :
    ∃ d', w'.result = .dataset d' ∧ d'.lookup x = d.lookup x
      ∧ (w'.wantedRefsCount.lookup x).getD 0 = (w.wantedRefsCount.lookup x).getD 0 := by
  refine (Except.foldlM_rest (I := fun rest w₁ =>
      (∀ g ∈ rest, g.1 ∉ ignore → ∀ def' ∈ g.2.defs, ¬ Touches env def' x)
      ∧ ∃ d', w₁.result = .dataset d' ∧ d'.lookup x = d.lookup x
        ∧ (w₁.wantedRefsCount.lookup x).getD 0 = (w.wantedRefsCount.lookup x).getD 0) ?_
    ⟨hx, d, hd, rfl, rfl⟩ h).2
  rintro g rest w₁ w₂ ⟨hrest, d₁, hd₁, hlook, hcount⟩ hstep
  obtain ⟨d₂, hd₂, hlook₂, hcount₂⟩ :=
    processGroup_frame (hrest g List.mem_cons_self) hd₁ hstep
  exact ⟨fun q hq => hrest q (List.mem_cons_of_mem g hq), d₂, hd₂, hlook₂.trans hlook,
    hcount₂.trans hcount⟩

end Gatherer
