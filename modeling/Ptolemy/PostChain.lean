/-
# Chains of post maps

The post maps of a group are meant as a chain: each step works on what the step
before it yielded, in the group that it yielded it for, and a record for which a
step yields nothing, or `None`, is dropped (`chain`).  The loop of `post_remap`
differs: it keeps a record for which a generator is empty, drops a record that has
become empty, gives every step the group that the record came from, and calls
nothing but the last map once one of them works on the whole dataset.

`groupChained_iff` says exactly when the loop does what the chain does.
-/
import Ptolemy.PostRemap
import Ptolemy.Run

namespace Driver

variable (env : Env)

/-! ## The chain -/

/-- **The composition of all steps**: the group and record that the last of them yields; none
where one of them yields nothing, or `None`. -/
def chain : List PostMap → Option (String × Ref) → World →
    Except Exn (Option (String × Ref) × World)
  | [], cur, w => pure (cur, w)
  | _ :: _, none, w => pure (none, w)
  | m :: ms, some (g, d), w => do
    let (ys, w) ← step env g d w m
    chain ms (consume none ys) w

/-- A record counts if it is not empty. -/
def kept : Option (String × Ref) × World → Option (String × Ref) × World
  | (none, w) => (none, w)
  | (some (g, d), w) => if (w.records d).items.isEmpty then (none, w) else (some (g, d), w)

theorem kept_of_empty {g : String} {d : Ref} {w : World}
    (h : (w.records d).items.isEmpty = true) : kept (some (g, d), w) = (none, w) := if_pos h

theorem kept_of_nonempty {g : String} {d : Ref} {w : World}
    (h : (w.records d).items.isEmpty = false) : kept (some (g, d), w) = (some (g, d), w) :=
  if_neg (by rw [h]; exact Bool.false_ne_true)

/-- A record that counts is there as it is. -/
theorem kept_eq_some {cur : Option (String × Ref)} {g : String} {d : Ref} {w w' : World}
    (h : kept (cur, w) = (some (g, d), w')) :
    cur = some (g, d) ∧ w' = w ∧ (w.records d).items.isEmpty = false := by
  cases cur with
  | none => cases h
  | some p =>
    obtain ⟨g', d'⟩ := p
    cases hd : (w.records d').items.isEmpty with
    | true =>
      rw [kept_of_empty hd] at h
      cases h
    | false =>
      rw [kept_of_nonempty hd] at h
      cases h
      exact ⟨rfl, rfl, hd⟩

/-- A record that does not count leaves the world as it is. -/
theorem kept_eq_none {cur : Option (String × Ref)} {w w' : World}
    (h : kept (cur, w) = (none, w')) :
    w' = w ∧ (cur = none ∨ ∃ g d, cur = some (g, d) ∧ (w.records d).items.isEmpty = true) := by
  cases cur with
  | none =>
    cases h
    exact ⟨rfl, Or.inl rfl⟩
  | some p =>
    obtain ⟨g, d⟩ := p
    cases hd : (w.records d).items.isEmpty with
    | true =>
      rw [kept_of_empty hd] at h
      cases h
      exact ⟨rfl, Or.inr ⟨g, d, rfl, hd⟩⟩
    | false =>
      rw [kept_of_nonempty hd] at h
      cases h

/-- A step on a record of group `g` that is now in group `thisG` and is not dropped is followed
by the loop: what the step yields is not empty, neither as a generator (unless it has
emptied the record) nor as a record; and if the record has left its group, the step
does for the old group what it does for the new one. -/
def StepFollows (g thisG : String) (d : Ref) (w : World) (m : PostMap) : Prop :=
  if thisG = g then
    ∀ ys w', step env g d w m = .ok (ys, w') →
      (ys = [] → (w'.records d).items.isEmpty = true)
        ∧ ∀ q, consume none ys = some q → (w'.records q.2).items.isEmpty = false
  else (step env g d w m).map (fun p => kept (consume (some (thisG, d)) p.1, p.2))
    = (step env thisG d w m).map (fun p => (consume none p.1, p.2))

/-- All steps that the chain reaches are followed. -/
def StepsFollow (g : String) : List PostMap → Option (String × Ref) → World → Prop
  | [], _, _ => True
  | _ :: _, none, _ => True
  | m :: ms, some (thisG, d), w => StepFollows env g thisG d w m
      ∧ ∀ ys w', step env thisG d w m = .ok (ys, w') → StepsFollow g ms (consume none ys) w'

/-! ## The loop and the chain -/

/-- A yield decides, whatever was there before. -/
theorem consume_of_ne_nil {α : Type} {ys : List (Option α)} (h : ys ≠ []) (cur cur' : Option α) :
    consume cur ys = consume cur' ys := by
  cases ys with
  | nil => exact absurd rfl h
  | cons y ys =>
    cases y with
    | none => rfl
    | some p => rfl

/-- Nothing happens to a dropped record any more. -/
theorem runMaps_dropped (g : String) (ms : List PostMap) {cur : Option (String × Ref)}
    {w w' : World} (h : kept (cur, w) = (none, w')) : runMaps env g ms cur w = .ok (cur, w) := by
  induction ms with
  | nil => rfl
  | cons m ms ih =>
    rcases (kept_eq_none h).2 with rfl | ⟨thisG, d, rfl, hempty⟩
    · exact ih
    · rw [runMaps]
      simp only [hempty, if_true]
      exact ih

theorem chain_none (ms : List PostMap) (w : World) : chain env ms none w = .ok (none, w) := by
  cases ms <;> rfl

section Step

variable {g thisG : String} {d : Ref} {w : World}

/-- What the loop makes of one step. -/
def loopStep (g thisG : String) (d : Ref) (w : World) (m : PostMap) :
    Except Exn (Option (String × Ref) × World) :=
  (step env g d w m).map (fun p => (consume (some (thisG, d)) p.1, p.2))

/-- What the chain makes of one step. -/
def chainStep (thisG : String) (d : Ref) (w : World) (m : PostMap) :
    Except Exn (Option (String × Ref) × World) :=
  (step env thisG d w m).map (fun p => (consume none p.1, p.2))

theorem runMaps_cons (m : PostMap) (ms : List PostMap)
    (hd : (w.records d).items.isEmpty = false) :
    runMaps env g (m :: ms) (some (thisG, d)) w
      = loopStep env g thisG d w m >>= fun p => runMaps env g ms p.1 p.2 := by
  rw [runMaps]
  simp only [hd, Bool.false_eq_true, if_false]
  unfold loopStep
  cases step env g d w m <;> rfl

theorem chain_cons (m : PostMap) (ms : List PostMap) :
    chain env (m :: ms) (some (thisG, d)) w
      = chainStep env thisG d w m >>= fun p => chain env ms p.1 p.2 := by
  rw [chain]
  unfold chainStep
  cases step env thisG d w m <;> rfl

/-- One step is followed just when the loop makes of it what the chain does. -/
theorem stepFollows_iff (m : PostMap) :
    StepFollows env g thisG d w m
      ↔ (loopStep env g thisG d w m).map kept = chainStep env thisG d w m := by
  unfold StepFollows loopStep chainStep
  split_ifs with hg
  · subst hg
    cases hstep : step env thisG d w m with
    | error e => exact ⟨fun _ => rfl, fun _ ys w' h => (by cases h)⟩
    | ok p =>
      obtain ⟨ys, w'⟩ := p
      show _ ↔ Except.ok (kept (consume (some (thisG, d)) ys, w')) = Except.ok (consume none ys, w')
      rw [Except.ok.injEq]
      by_cases hys : ys = []
      · -- an empty generator drops the record if the record is empty now
        subst hys
        show _ ↔ kept (some (thisG, d), w') = (none, w')
        constructor
        · exact fun h => kept_of_empty ((h [] w' rfl).1 rfl)
        · intro h ys w'' heq
          cases heq
          refine ⟨fun _ => ?_, fun q hq => (by cases hq)⟩
          rcases (kept_eq_none h).2 with hc | ⟨g', d', hc, hempty⟩
          · cases hc
          · cases hc
            exact hempty
      · rw [consume_of_ne_nil hys (some (thisG, d)) none]
        cases hq : consume none ys with
        | none =>
          refine ⟨fun _ => rfl, fun _ ys' w'' heq => ?_⟩
          cases heq
          exact ⟨fun hc => absurd hc hys, fun q hq' => (by rw [hq] at hq'; cases hq')⟩
        | some q =>
          obtain ⟨g', d'⟩ := q
          constructor
          · exact fun h => kept_of_nonempty ((h ys w' rfl).2 (g', d') hq)
          · intro h ys' w'' heq
            cases heq
            refine ⟨fun hc => absurd hc hys, fun q' hq' => ?_⟩
            rw [hq] at hq'
            cases hq'
            exact (kept_eq_some h).2.2
  · cases step env g d w m <;> rfl

/-- **The loop does what the chain does**, for every first part of a list of maps, just when
every step that the chain reaches is followed. -/
theorem loop_eq_chain_iff (ms : List PostMap) (hd : (w.records d).items.isEmpty = false) :
    (∀ ps, ps <+: ms → (runMaps env g ps (some (thisG, d)) w).map kept
        = chain env ps (some (thisG, d)) w)
      ↔ StepsFollow env g ms (some (thisG, d)) w := by
  induction ms generalizing thisG d w with
  | nil =>
    refine ⟨fun _ => trivial, fun _ ps hps => ?_⟩
    rw [List.prefix_nil.mp hps]
    exact congrArg Except.ok (kept_of_nonempty hd)
  | cons m ms ih =>
    have hnil : (runMaps env g [] (some (thisG, d)) w).map kept
        = chain env [] (some (thisG, d)) w := congrArg Except.ok (kept_of_nonempty hd)
    unfold StepsFollow
    rw [stepFollows_iff env m]
    constructor
    · intro h
      -- the list of the first map alone
      have hone := h [m] (by simp)
      rw [runMaps_cons env m [] hd, chain_cons] at hone
      have hstep : (loopStep env g thisG d w m).map kept = chainStep env thisG d w m := by
        cases hl : loopStep env g thisG d w m <;> cases hc : chainStep env thisG d w m
        all_goals rw [hl, hc] at hone; exact hone
      refine ⟨hstep, fun ys w' hys => ?_⟩
      have hchain : chainStep env thisG d w m = .ok (consume none ys, w') := by
        unfold chainStep
        rw [hys]
        rfl
      rw [hchain] at hstep
      cases hl : loopStep env g thisG d w m with
      | error e => rw [hl] at hstep; cases hstep
      | ok p =>
        obtain ⟨cur, w''⟩ := p
        rw [hl] at hstep
        have hkept : kept (cur, w'') = (consume none ys, w') := Except.ok.inj hstep
        cases hq : consume none ys with
        | none => cases ms <;> trivial
        | some q =>
          obtain ⟨g', d'⟩ := q
          rw [hq] at hkept
          obtain ⟨rfl, rfl, hd'⟩ := kept_eq_some hkept
          refine (ih hd').mp (fun ps hps => ?_)
          have hps' := h (m :: ps) (by simpa using hps)
          rw [runMaps_cons env m ps hd, chain_cons, hl, hchain, hq] at hps'
          exact hps'
    · rintro ⟨hstep, hrest⟩ ps hps
      cases ps with
      | nil => exact hnil
      | cons m' ps =>
        obtain ⟨rfl, hrest'⟩ := List.cons_prefix_cons.mp hps
        rw [runMaps_cons env m' ps hd, chain_cons, ← hstep]
        cases hl : loopStep env g thisG d w m' with
        | error e => rfl
        | ok p =>
          obtain ⟨cur, w'⟩ := p
          show (runMaps env g ps cur w').map kept = chain env ps (kept (cur, w')).1 (kept (cur, w')).2
          rw [hl] at hstep
          have hchain : chainStep env thisG d w m' = .ok (kept (cur, w')) := hstep.symm
          -- a record that is dropped stays dropped, one that is kept goes on with the next map
          cases hk : kept (cur, w') with
          | mk q w'' =>
            cases q with
            | none =>
              rw [runMaps_dropped env g ps hk, chain_none]
              exact congrArg Except.ok hk
            | some q =>
              obtain ⟨g', d'⟩ := q
              obtain ⟨rfl, rfl, hd'⟩ := kept_eq_some hk
              refine (ih hd').mpr ?_ ps hrest'
              unfold chainStep at hchain
              rw [hk] at hchain
              cases hs : step env thisG d w m' with
              | error e => rw [hs] at hchain; cases hchain
              | ok r =>
                rw [hs] at hchain
                have heq : (consume none r.1, r.2) = (some (g', d'), w'') := Except.ok.inj hchain
                have hr := hrest r.1 r.2 hs
                rwa [(Prod.mk.inj heq).1, (Prod.mk.inj heq).2] at hr

end Step

/-! ## Groups -/

section Group

variable (posts : Posts) (keys : Dict String String) (g : String)

/-- **What should become of one index of a group**: its record is dropped, or is appended once,
as the chain leaves it, to the group that the chain puts it in. -/
def chainItem (s : State) (k : String) : Except Exn State := do
  let (d, w) ← takeItem keys g k s.world
  let (cur, w) ← chain env (postMaps posts g) (some (g, d)) w
  pure (match cur with
    | none => ⟨w, s.results⟩
    | some (thisG, d) => ⟨if (removeKeyOf posts g).1 then
        w.set d ((w.records d).erase (removeKeyOf posts g).2) else w,
      s.results ++ [some (thisG, d)]⟩)

/-- The turn of one index: after every first part of the maps the record is where the chain of
these puts it, and in the end the results are as they should be. -/
def ItemChained (s : State) (k : String) : Prop :=
  (∀ d w, takeItem keys g k s.world = .ok (d, w) → ∀ ps, ps <+: postMaps posts g →
      (runMaps env g ps (some (g, d)) w).map kept = chain env ps (some (g, d)) w)
    ∧ visitItem env posts keys g s k = chainItem env posts keys g s k

/-- All steps are followed, and a key that is to be removed is still there. -/
def ItemClear (s : State) (k : String) : Prop :=
  ∀ d w, takeItem keys g k s.world = .ok (d, w) →
    StepsFollow env g (postMaps posts g) (some (g, d)) w
      ∧ ((removeKeyOf posts g).1 = true → ∀ thisG d' w',
        chain env (postMaps posts g) (some (g, d)) w = .ok (some (thisG, d'), w') →
          (removeKeyOf posts g).2 ∈ w'.records d')

/-- The turns of a group, one after the other. -/
def turn (s : Except Exn State) (k : String) : Except Exn State :=
  s >>= fun s => visitItem env posts keys g s k

/-- The maps that a visit calls. -/
def calledMaps (work : Bool) (ms : List PostMap) : List PostMap :=
  if work then ms.getLast?.toList else ms

/-- The indexes of a group, in the order of a visit. -/
def indexes (w : World) : List String :=
  ((w.data.lookup g).elim [] (fun items => env.order.order items.items)).map Prod.fst

/-- **The visit of a group is a chain**: every map is called, and every index is chained in its
turn. -/
def GroupChained (s : State) : Prop :=
  ∀ work, workOnDataset env (postMaps posts g) false = .ok work →
    calledMaps work (postMaps posts g) = postMaps posts g
      ∧ (work = false → Run.Along (turn env posts keys g)
        (fun s k => ∀ s', s = .ok s' → ItemChained env posts keys g s' k) (.ok s)
        (indexes env g s.world))

/-- A map that works on the whole dataset is the only one, and every index is clear in its
turn. -/
def GroupClear (s : State) : Prop :=
  ∀ work, workOnDataset env (postMaps posts g) false = .ok work →
    (work = true → (postMaps posts g).length = 1)
      ∧ (work = false → Run.Along (turn env posts keys g)
        (fun s k => ∀ s', s = .ok s' → ItemClear env posts keys g s' k) (.ok s)
        (indexes env g s.world))

variable {env posts keys g}

/-- The record of an index has its key. -/
theorem nonempty_of_takeItem {k : String} {w w' : World} {d : Ref}
    (h : takeItem keys g k w = .ok (d, w')) : (w'.records d).items.isEmpty = false := by
  unfold takeItem at h
  obtain ⟨items, -, h⟩ := Except.bind_eq_ok.mp h
  obtain ⟨d', -, h⟩ := Except.bind_eq_ok.mp h
  obtain ⟨key, -, h⟩ := Except.bind_eq_ok.mp h
  cases h
  have hmem : key ∈ (if key ∈ w.records d then w
      else w.set d ((w.records d).insert key (.str k))).records d := by
    split_ifs with hkey
    · exact hkey
    · show key ∈ Function.update w.records d _ d
      rw [Function.update_self, AList.mem_insert]
      exact Or.inl rfl
  obtain ⟨v, hv⟩ := Dict.mem_iff_lookup.mp hmem
  have hitem := Dict.mem_items.mpr hv
  rw [List.isEmpty_eq_false_iff]
  exact List.ne_nil_of_mem hitem

variable (env posts keys g)

/-- **One turn is a chain exactly when it is clear.** -/
theorem itemChained_iff (s : State) (k : String) :
    ItemChained env posts keys g s k ↔ ItemClear env posts keys g s k := by
  cases htake : takeItem keys g k s.world with
  | error e =>
    refine ⟨fun _ d w h => (by rw [htake] at h; cases h),
      fun _ => ⟨fun d w h => (by rw [htake] at h; cases h), ?_⟩⟩
    unfold visitItem chainItem
    rw [htake]
    rfl
  | ok p =>
    obtain ⟨d, w⟩ := p
    have hd := nonempty_of_takeItem htake
    -- the maps follow the chain; what is left is the index that is removed at the end
    have hfollow := @loop_eq_chain_iff env g g d w (postMaps posts g) hd
    have hvisit : visitItem env posts keys g s k = runMaps env g (postMaps posts g) (some (g, d)) w
        >>= fun p => finishItem (removeKeyOf posts g).1 (removeKeyOf posts g).2 s.results p.1 p.2 := by
      unfold visitItem
      rw [htake]
      rfl
    have hspec : chainItem env posts keys g s k = chain env (postMaps posts g) (some (g, d)) w
        >>= fun p => pure (match p.1 with
          | none => ⟨p.2, s.results⟩
          | some (thisG, d) => ⟨if (removeKeyOf posts g).1 then
              p.2.set d ((p.2.records d).erase (removeKeyOf posts g).2) else p.2,
            s.results ++ [some (thisG, d)]⟩) := by
      unfold chainItem
      rw [htake]
      rfl
    constructor
    · rintro ⟨hloop, heq⟩ d' w' htake'
      rw [htake] at htake'
      cases htake'
      have hps := hloop d w htake
      refine ⟨hfollow.mp hps, fun hremove thisG d' w' hchain => ?_⟩
      by_contra hkey
      -- the loop raises where the key is gone
      have hall := hps _ (List.prefix_refl _)
      rw [hchain] at hall
      rw [hvisit, hspec, hchain] at heq
      cases hrun : runMaps env g (postMaps posts g) (some (g, d)) w with
      | error e => rw [hrun] at hall; cases hall
      | ok p =>
        obtain ⟨cur, w''⟩ := p
        rw [hrun] at hall heq
        obtain ⟨rfl, rfl, hd'⟩ := kept_eq_some (Except.ok.inj hall)
        change finishItem _ _ s.results (some (thisG, d')) w' = _ at heq
        unfold finishItem at heq
        simp only [hd', hremove, hkey, Bool.false_eq_true, if_false, if_true] at heq
        cases heq
    · intro hclear
      obtain ⟨hsteps, hremove⟩ := hclear d w htake
      have hps := hfollow.mpr hsteps
      refine ⟨fun d' w' htake' => ?_, ?_⟩
      · rw [htake] at htake'
        cases htake'
        exact hps
      · have hall := hps _ (List.prefix_refl _)
        rw [hvisit, hspec, ← hall]
        cases hrun : runMaps env g (postMaps posts g) (some (g, d)) w with
        | error e => rfl
        | ok p =>
          obtain ⟨cur, w''⟩ := p
          rw [hrun] at hall
          show finishItem _ _ s.results cur w'' = Except.ok (match (kept (cur, w'')).1 with
            | none => ⟨(kept (cur, w'')).2, s.results⟩
            | some (thisG, d) => _)
          cases hk : kept (cur, w'') with
          | mk q w' =>
            cases q with
            | none =>
              obtain ⟨rfl, rfl | ⟨thisG, d', rfl, hempty⟩⟩ := kept_eq_none hk
              · rfl
              · unfold finishItem
                simp only [hempty, if_true]
                rfl
            | some q =>
              obtain ⟨thisG, d'⟩ := q
              obtain ⟨rfl, rfl, hd'⟩ := kept_eq_some hk
              have hkey := fun h => hremove h thisG d' w' (by rw [← hall]; exact congrArg Except.ok hk)
              unfold finishItem
              cases hr : (removeKeyOf posts g).1 with
              | false =>
                simp only [hd', Bool.false_eq_true, if_false]
                rfl
              | true =>
                simp only [hd', hkey hr, Bool.false_eq_true, if_false, if_true]
                rfl

/-- The turns of clear indexes do what they should. -/
theorem foldlM_visitItem {s : State} {ks : List String}
    (h : Run.Along (turn env posts keys g)
      (fun s k => ∀ s', s = .ok s' → ItemClear env posts keys g s' k) (.ok s) ks) :
    ks.foldlM (visitItem env posts keys g) s = ks.foldlM (chainItem env posts keys g) s := by
  induction ks generalizing s with
  | nil => rfl
  | cons k ks ih =>
    have hitem := ((itemChained_iff env posts keys g s k).mpr (h.1 s rfl)).2
    rw [List.foldlM_cons, List.foldlM_cons, ← hitem]
    cases hv : visitItem env posts keys g s k with
    | error e => rfl
    | ok s' =>
      refine ih ?_
      have hturn : turn env posts keys g (.ok s) k = .ok s' := hv
      rw [← hturn]
      exact h.2

/-- **The semantics of `post_remap`**: the visit of a group is a chain exactly when it is clear,
and then the records of the group are dropped, or appended once in the order of their
indexes, as the chain leaves them.  Where a map works on the whole dataset, the visit is that
of the only map called. -/
theorem groupChained_iff (s : State) :
    (GroupChained env posts keys g s ↔ GroupClear env posts keys g s)
      ∧ (GroupClear env posts keys g s → workOnDataset env (postMaps posts g) false = .ok false →
        ∀ items, s.world.data.lookup g = some items →
          visitGroup env posts keys s g
            = (indexes env g s.world).foldlM (chainItem env posts keys g) s)
      ∧ (workOnDataset env (postMaps posts g) false = .ok true →
        ∀ m, calledMaps true (postMaps posts g) = [m] →
          visitGroup env posts keys s g = visitDataset env posts g m s) := by
  have halong : Run.Along (turn env posts keys g)
        (fun s k => ∀ s', s = .ok s' → ItemChained env posts keys g s' k) (.ok s)
        (indexes env g s.world)
      ↔ Run.Along (turn env posts keys g)
        (fun s k => ∀ s', s = .ok s' → ItemClear env posts keys g s' k) (.ok s)
        (indexes env g s.world) :=
    Run.along_congr (I := fun _ => True) (fun _ _ _ => trivial) trivial
      (fun k _ s _ => forall_congr' (fun s' => imp_congr_right
        (fun _ => itemChained_iff env posts keys g s' k)))
  refine ⟨forall_congr' (fun work => imp_congr_right (fun hwork => ?_)), ?_, ?_⟩
  · rw [halong]
    cases work with
    | false =>
      exact ⟨fun h => ⟨fun hc => (by cases hc), h.2⟩, fun h => ⟨rfl, h.2⟩⟩
    | true =>
      have hlast : calledMaps true (postMaps posts g) = postMaps posts g
          ↔ (postMaps posts g).length = 1 := by
        unfold calledMaps
        rw [if_pos rfl]
        rcases hms : postMaps posts g with _ | ⟨m, _ | ⟨m', ms⟩⟩
        · rw [hms] at hwork
          cases hwork
        · exact ⟨fun _ => rfl, fun _ => rfl⟩
        · constructor
          · intro h
            have hlen := congrArg List.length h
            have hle : (List.getLast? (m :: m' :: ms)).toList.length ≤ 1 := by
              cases List.getLast? (m :: m' :: ms) <;> simp
            simp only [List.length_cons] at hlen
            omega
          · intro h
            simp at h
      rw [hlast]
      exact ⟨fun h => ⟨fun _ => h.1, h.2⟩, fun h => ⟨h.1 rfl, h.2⟩⟩
  · intro hclear hwork items hitems
    have hfold := foldlM_visitItem env posts keys g ((hclear false hwork).2 rfl)
    rw [← hfold]
    unfold visitGroup indexes
    rw [hwork, hitems]
    rfl
  · intro hwork m hm
    have hlast : (postMaps posts g).getLast? = some m := by
      unfold calledMaps at hm
      rw [if_pos rfl] at hm
      cases hl : (postMaps posts g).getLast? with
      | none => rw [hl] at hm; cases hm
      | some m' => rw [hl] at hm; cases hm; rfl
    unfold visitGroup
    rw [hwork, hlast]
    rfl

end Group

/-! ## The mac addresses of a switch -/

/-- A driver of mac addresses with the given post maps. -/
def macPosts (maps : List PostMap) : Posts where
  groups := Dict.ofList [("mac_address", { keyName := "mac_address", post := some maps })]

def macKeys : Dict String String := Dict.ofList [("mac_address", "mac_address")]

/-- One mac address with the given fields. -/
def macState (r : Record) : State where
  world :=
    { records := fun _ => r, next := 1
      data := Dict.ofList [("mac_address", Dict.ofList [("d4be.d951.2cd0", 0)])] }

/-- A mac address on a vlan moves to the group of the vlan. -/
theorem groupChained_macAddress :
    let posts := macPosts [.post_new_group_from_field (some "vlan")]
    let s := macState (Dict.ofList [("physical_port", .str "Gi1/0/20"), ("vlan", .str "32")])
    visitGroup sampleEnv posts macKeys s "mac_address"
      = (indexes sampleEnv "mac_address" s.world).foldlM
        (chainItem sampleEnv posts macKeys "mac_address") s := by
  refine (groupChained_iff sampleEnv _ macKeys "mac_address" _).2.1 (fun work hwork => ?_) rfl _ rfl
  cases hwork
  refine ⟨fun hc => (by cases hc), fun _ => ⟨fun s' hs' d w htake => ?_, trivial⟩⟩
  cases hs'
  cases htake
  refine ⟨⟨?_, fun _ _ _ => trivial⟩, fun hc => (by cases hc)⟩
  unfold StepFollows
  rw [if_pos rfl]
  intro ys w' hstep
  cases hstep
  refine ⟨fun hc => (by cases hc), fun q hq => ?_⟩
  cases hq
  rfl

/-- A mac address without a vlan is kept, though the step yields nothing for it; one that has a
vlan does not move if another step follows; and a step before `post_merge` is not called. -/
theorem not_groupChained_macAddress :
    ¬ GroupChained sampleEnv (macPosts [.post_new_group_from_field (some "vlan")]) macKeys
        "mac_address" (macState (Dict.ofList [("physical_port", .str "Gi1/0/20")]))
      ∧ ¬ GroupChained sampleEnv
        (macPosts [.post_new_group_from_field (some "vlan"), .post_clean ["status"]]) macKeys
        "mac_address" (macState (Dict.ofList [("vlan", .str "32")]))
      ∧ ¬ GroupChained sampleEnv
        (macPosts [.post_clean ["status"], .post_merge (Dict.ofList [("info", "")])]) macKeys
        "mac_address" (macState (Dict.ofList [("vlan", .str "32")])) := by
  have hresults : ∀ maps r, workOnDataset sampleEnv (postMaps (macPosts maps) "mac_address") false
        = .ok false → GroupChained sampleEnv (macPosts maps) macKeys "mac_address" (macState r) →
      (visitItem sampleEnv (macPosts maps) macKeys "mac_address" (macState r)
          "d4be.d951.2cd0").toOption.map State.results
        = (chainItem sampleEnv (macPosts maps) macKeys "mac_address" (macState r)
          "d4be.d951.2cd0").toOption.map State.results := by
    intro maps r hwork h
    rw [(((h false hwork).2 rfl).1 _ rfl).2]
  refine ⟨fun h => ?_, fun h => ?_, fun h => ?_⟩
  · exact absurd (hresults _ _ rfl h) (by decide)
  · exact absurd (hresults _ _ rfl h) (by decide)
  · have hlen := congrArg List.length (h true rfl).1
    exact absurd hlen (by decide)

end Driver
