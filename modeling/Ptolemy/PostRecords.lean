/-
# Post-processing record by record

The post maps change the records of a group in place, one index after the other, and all
groups share the objects.  For maps that work on one record, and that look up keys in other
groups only, this is a function of each record by itself: the visit of a group raises where
the first of its records does, and otherwise yields what each makes of its own record
(`contribution_eq_mapM`).
-/
import Ptolemy.PostOrder

namespace Driver

variable {env : Env} {posts : Posts} {keys : Dict String String} {g : String}

theorem workOnDataset_perRecord {ms : List PostMap} (hms : ∀ m ∈ ms, PerRecord m) (b : Bool) :
    workOnDataset env ms b = .ok b := by
  induction ms generalizing b with
  | nil => rfl
  | cons m ms ih =>
    have ih' := ih (fun m' hm' => hms m' (List.mem_cons_of_mem m hm')) b
    have hm := hms m List.mem_cons_self
    cases m with
    | post_merge defn => exact hm.elim
    | post_function defn => exact hm.elim
    | _ => exact ih'

theorem withoutFunctions_of_perRecord {m : PostMap} (h : PerRecord m) : WithoutFunctions m := by
  cases m with
  | post_function defn => exact h
  | unknown name => exact h
  | _ => trivial

/-- Maps that work on one record and substitute no keys read no other group. -/
theorem not_reads_of_perRecord (hms : ∀ m ∈ postMaps posts g, PerRecord m)
    (hsub : ∀ defn, .post_key_sub defn ∉ postMaps posts g) (h : String) :
    ¬ Reads env posts g h := by
  rintro (⟨defn, hwork, -, -⟩ | ⟨defn, f, ref, -, hmem, -, -⟩)
  · rw [workOnDataset_perRecord hms] at hwork
    cases hwork
  · exact hsub defn hmem

variable (posts g) in
/-- The keys that are substituted are looked up in other groups. -/
def ReadsOthers : Prop :=
  ∀ defn f ref, .post_key_sub defn ∈ postMaps posts g → defn.lookup f = some ref →
    (keySubTarget g ref).1 ≠ g

variable (env posts keys g) in
/-- What the record of one index becomes: nothing, or the record of a group. -/
def madeOf (w : World) (p : String × Ref) : Except Exn (List (Option (String × Record))) :=
  (itemRecord env posts keys g p.1 p.2 w (w.records p.2)).map
    (fun q => q.1.toList.map (fun thisG => some (thisG, q.2)))

/-- The turn of an index sees the records of the other groups, and its own, as in the world `w`. -/
theorem itemRecord_others {P : Ref → Prop} (hothers : ReadsOthers posts g) {w w' : World}
    (h : AgreeOn P w w') (hP : ∀ h' r, h' ≠ g → Owns w.data h' r → P r) (k : String) (d : Ref)
    (r : Record) :
    itemRecord env posts keys g k d w' r = itemRecord env posts keys g k d w r :=
  itemRecord_of_agreeOn h
    (fun defn f ref hmem hf r hr => hP _ r (hothers defn f ref hmem hf) hr) k d r

/-- The indexes that are still to be visited are those of the list `l`: their records, and
those of the other groups, are as in the world `w`, and no result refers to them. -/
structure Pending (g : String) (w : World) (l : List (String × Ref)) (s : State) : Prop where
  agreeOn : AgreeOn (fun r => r ∈ l.map Prod.snd ∨ ∃ h, h ≠ g ∧ Owns w.data h r) w s.world
  results : ∀ q, some q ∈ s.results → q.2 ∉ l.map Prod.snd

/-- One index. -/
theorem Pending.next {w : World} {l : List (String × Ref)} {p : String × Ref} {s : State}
    (h : Pending g w (p :: l) s) (hnodup : ((p :: l).map Prod.snd).Nodup)
    (hown : ∀ h', h' ≠ g → ¬ Owns w.data h' p.2) (r : Record) (cur : Option String) :
    Pending g w l ⟨s.world.set p.2 r, s.results ++ yieldsOf p.2 (cur.toList.map some)⟩
      ∧ values (s.world.set p.2 r) (s.results ++ yieldsOf p.2 (cur.toList.map some))
        = values s.world s.results ++ cur.toList.map (fun thisG => some (thisG, r)) := by
  rw [List.map_cons, List.nodup_cons] at hnodup
  obtain ⟨hnew, -⟩ := hnodup
  refine ⟨⟨⟨h.agreeOn.data, fun r' hr' => ?_⟩, fun q hq => ?_⟩, ?_⟩
  · have hne : r' ≠ p.2 := by
      rintro rfl
      rcases hr' with hr' | ⟨h', hh', hr'⟩
      · exact hnew hr'
      · exact hown h' hh' hr'
    rw [World.set_records_of_ne _ _ hne]
    refine h.agreeOn.records r' (hr'.imp_left (fun hmem => ?_))
    rw [List.map_cons]
    exact List.mem_cons_of_mem _ hmem
  · rcases List.mem_append.mp hq with hq | hq
    · have hold := h.results q hq
      rw [List.map_cons] at hold
      exact fun hmem => hold (List.mem_cons_of_mem _ hmem)
    · cases cur with
      | none => exact absurd hq List.not_mem_nil
      | some thisG =>
        have hq' : some q ∈ [some (thisG, p.2)] := hq
        rw [Option.some.inj (List.mem_singleton.mp hq')]
        exact hnew
  · -- the results so far do not refer to the record that is set
    unfold values
    rw [List.map_append]
    congr 1
    · refine List.map_congr_left (fun y hy => ?_)
      cases y with
      | none => rfl
      | some q =>
        have hne : q.2 ≠ p.2 := by
          intro heq
          have hold := h.results q hy
          rw [List.map_cons, heq] at hold
          exact hold List.mem_cons_self
        show some (q.1, (s.world.set p.2 r).records q.2) = some (q.1, s.world.records q.2)
        rw [World.set_records_of_ne _ _ hne]
    · cases cur with
      | none => rfl
      | some thisG =>
        show [some (thisG, (s.world.set p.2 r).records p.2)] = [some (thisG, r)]
        rw [World.set_records_self]

/-- The indexes one after the other. -/
theorem Pending.foldlM (hms : ∀ m ∈ postMaps posts g, PerRecord m)
    (hothers : ReadsOthers posts g) {w : World} {items : Dict String Ref}
    (hitems : w.data.lookup g = some items) {l : List (String × Ref)}
    (hl : ∀ p ∈ l, items.lookup p.1 = some p.2) (hnodup : (l.map Prod.snd).Nodup)
    (hown : ∀ p ∈ l, ∀ h, h ≠ g → ¬ Owns w.data h p.2) {s : State} (h : Pending g w l s) :
    ((l.map Prod.fst).foldlM (visitItem env posts keys g) s).map
        (fun t => values t.world t.results)
      = (l.mapM (madeOf env posts keys g w)).map
        (fun ys => values s.world s.results ++ ys.flatten) := by
  induction l generalizing s with
  | nil =>
    show Except.ok (values s.world s.results) = Except.ok (values s.world s.results ++ [])
    rw [List.append_nil]
  | cons p l ih =>
    have hdata : s.world.data.lookup g = some items := by
      rw [h.agreeOn.data]
      exact hitems
    have hrec : s.world.records p.2 = w.records p.2 :=
      h.agreeOn.records p.2 (Or.inl List.mem_cons_self)
    have hturn : visitItem env posts keys g s p.1
        = (itemRecord env posts keys g p.1 p.2 w (w.records p.2)).map
          (fun q => ⟨s.world.set p.2 q.2, s.results ++ yieldsOf p.2 (q.1.toList.map some)⟩) := by
      rw [visitItem_eq env posts keys g hms hdata (hl p List.mem_cons_self), hrec,
        itemRecord_others hothers h.agreeOn (fun h' r hne hr => Or.inr ⟨h', hne, hr⟩)]
    have hmade : madeOf env posts keys g w p
        = (itemRecord env posts keys g p.1 p.2 w (w.records p.2)).map
          (fun q => q.1.toList.map (fun thisG => some (thisG, q.2))) := rfl
    rw [List.map_cons, List.foldlM_cons, List.mapM_cons, hturn, hmade]
    cases itemRecord env posts keys g p.1 p.2 w (w.records p.2) with
    | error e => rfl
    | ok q =>
      obtain ⟨hnext, hvalues⟩ := h.next hnodup (hown p List.mem_cons_self) q.2 q.1
      have hrest := ih (fun p' hp' => hl p' (List.mem_cons_of_mem p hp'))
        (List.nodup_cons.mp hnodup).2 (fun p' hp' => hown p' (List.mem_cons_of_mem p hp')) hnext
      refine hrest.trans ?_
      rw [hvalues]
      cases l.mapM (madeOf env posts keys g w) with
      | error e => rfl
      | ok ys => exact congrArg Except.ok (List.append_assoc _ _ _)

/-- **Post-processing record by record.**  The records of a group are distinct objects of their
own, its maps work on one record each and look up keys in other groups: the visit of the group
raises what the first of its records raises, and otherwise yields what becomes of each record
by itself, in the order of the indexes. -/
theorem contribution_eq_mapM {w : World} (hsep : Separate w) {items : Dict String Ref}
    (hitems : w.data.lookup g = some items) (hinj : (items.items.map Prod.snd).Nodup)
    (hms : ∀ m ∈ postMaps posts g, PerRecord m) (hothers : ReadsOthers posts g) :
    contribution env posts keys w g
      = ((env.order.order items.items).mapM (madeOf env posts keys g w)).map List.flatten := by
  unfold contribution
  have hstart : Pending g w (env.order.order items.items) ⟨w, []⟩ :=
    ⟨⟨rfl, fun _ _ => rfl⟩, fun _ hq => absurd hq List.not_mem_nil⟩
  have hlook : ∀ p ∈ env.order.order items.items, items.lookup p.1 = some p.2 :=
    fun p hp => Dict.mem_items.mp ((env.order.mem_order).mp hp)
  have hnodup : ((env.order.order items.items).map Prod.snd).Nodup := by
    rw [((env.order.perm _).map Prod.snd).nodup_iff]
    exact hinj
  rw [visitGroup_items (workOnDataset_perRecord hms false), hitems, Option.elim_some,
    hstart.foldlM hms hothers hitems hlook hnodup (fun p hp h hne hr =>
      hne (hsep.inj h g p.2 hr ⟨items, p.1, hitems, hlook p hp⟩))]
  rfl

/-! ## The stations of a switch -/

/-- The stations that a switch has learned, in sub-groups by their vlan. -/
def stationPosts : Posts where
  groups := Dict.ofList [("neighbour", {
    keyName := "mac_address"
    post := some [.post_key_rename (Dict.ofList [("ifname", "physical_port")]),
      .post_new_group_from_field (some "vlan")] })]

def stationKeys : Dict String String := Dict.ofList [("neighbour", "mac_address")]

def stations : Dict String Ref :=
  Dict.ofList [("00:11:22:33:44:55", 0), ("00:11:22:33:44:66", 1)]

def stationWorld : World where
  records := fun d => Dict.ofList [("vlan", .int (12 + d)), ("ifname", .str "Gi1/1")]
  next := 2
  data := Dict.ofList [("neighbour", stations)]

theorem owns_stationWorld {g : String} {d : Ref} (h : Owns stationWorld.data g d) :
    g = "neighbour" ∧ (d = 0 ∨ d = 1) := by
  obtain ⟨items, k, hitems, hd⟩ := h
  have hmem : (g, items) ∈ stationWorld.data.items := Dict.mem_items.mpr hitems
  cases List.mem_singleton.mp hmem
  have hkd : (k, d) ∈ [("00:11:22:33:44:66", 1), ("00:11:22:33:44:55", 0)] := Dict.mem_items.mpr hd
  rcases List.mem_cons.mp hkd with heq | hkd
  · cases heq
    exact ⟨rfl, Or.inr rfl⟩
  · cases List.mem_singleton.mp hkd
    exact ⟨rfl, Or.inl rfl⟩

theorem separate_stationWorld : Separate stationWorld := by
  refine ⟨fun g g' d h h' => ?_, fun g d h => ?_⟩
  · rw [(owns_stationWorld h).1, (owns_stationWorld h').1]
  · rcases (owns_stationWorld h).2 with rfl | rfl
    · exact Nat.zero_lt_two
    · exact Nat.one_lt_two

theorem postMaps_stationPosts (g : String) : postMaps stationPosts g = [.post_null]
    ∨ postMaps stationPosts g = [.post_key_rename (Dict.ofList [("ifname", "physical_port")]),
      .post_new_group_from_field (some "vlan")] := by
  unfold postMaps
  cases hg : stationPosts.groups.lookup g with
  | none => exact Or.inl rfl
  | some defn =>
    have hmem : (g, defn) ∈ stationPosts.groups.items := Dict.mem_items.mpr hg
    cases List.mem_singleton.mp hmem
    exact Or.inr rfl

/-- The maps of the stations work on one record each, and look nothing up. -/
theorem perRecord_stationPosts (g : String) : (∀ m ∈ postMaps stationPosts g, PerRecord m)
    ∧ ∀ defn, .post_key_sub defn ∉ postMaps stationPosts g := by
  rcases postMaps_stationPosts g with h | h
  all_goals rw [h]
  · refine ⟨fun m hm => ?_, fun defn hdefn => ?_⟩
    · rw [List.mem_singleton.mp hm]
      trivial
    · cases List.mem_singleton.mp hdefn
  · refine ⟨fun m hm => ?_, fun defn hdefn => ?_⟩
    · rcases List.mem_cons.mp hm with rfl | hm
      · trivial
      · rw [List.mem_singleton.mp hm]
        trivial
    · rcases List.mem_cons.mp hdefn with heq | hdefn
      · cases heq
      · cases List.mem_singleton.mp hdefn

/-- Each station becomes the record of a sub-group of its own. -/
theorem contribution_stations :
    (contribution sampleEnv stationPosts stationKeys stationWorld "neighbour").toOption.map
        (List.map (Option.map (fun p => (p.1, p.2.items))))
      = some [some ("neighbour@vlan=13",
          [("physical_port", .str "Gi1/1"), ("mac_address", .str "00:11:22:33:44:66")]),
        some ("neighbour@vlan=12",
          [("physical_port", .str "Gi1/1"), ("mac_address", .str "00:11:22:33:44:55")])] := by
  have hitems : stationWorld.data.lookup "neighbour" = some stations := rfl
  rw [contribution_eq_mapM separate_stationWorld hitems (by decide)
    (perRecord_stationPosts "neighbour").1
    (fun defn _ _ hmem => absurd hmem ((perRecord_stationPosts "neighbour").2 defn))]
  decide

end Driver
