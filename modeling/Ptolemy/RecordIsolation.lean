/-
# Which records `post_merge` yields

The records of a group are laid over each other in one dictionary, and a copy of it is yielded
after each.  A record that is yielded has exactly the fields of its source only if no
record before has a field that it lacks (`isolated_iff`); and the name of the group is
taken out of a field's name wherever it occurs, not only at its start.
-/
import Ptolemy.PostOrder

namespace Driver

/-! ## Names of fields -/

/-- The name of a field without the prefix `s`. -/
def withoutPrefix (s u : String) : String :=
  String.ofList (if s.toList.isPrefixOf u.toList then u.toList.drop s.length else u.toList)

theorem replaceChars_eq_drop (s : List Char) (n : ℕ) (l : List Char) :
    replaceChars s n l = replaceChars s 0 (l.drop n) := by
  induction l generalizing n with
  | nil =>
    rw [List.drop_nil]
    unfold replaceChars
    rfl
  | cons c l ih =>
    cases n with
    | zero => rfl
    | succ n => exact ih n

/-- A text that is left out at the beginning. -/
theorem replaceChars_append {s : List Char} (hs : s ≠ []) (cs : List Char) :
    replaceChars s 0 (s ++ cs) = replaceChars s 0 cs := by
  obtain ⟨c, rest, rfl⟩ := List.exists_cons_of_ne_nil hs
  have hprefix : (c :: rest).isPrefixOf (c :: (rest ++ cs)) = true := by
    rw [List.isPrefixOf_iff_prefix]
    exact List.prefix_append (c :: rest) cs
  rw [List.cons_append, replaceChars, if_pos ⟨hs, hprefix⟩, replaceChars_eq_drop,
    List.length_cons, Nat.add_sub_cancel, List.drop_left]

theorem length_replaceChars_le (s : List Char) (n : ℕ) (l : List Char) :
    (replaceChars s n l).length ≤ l.length := by
  induction l generalizing n with
  | nil =>
    unfold replaceChars
    exact le_refl _
  | cons c l ih =>
    cases n with
    | succ n => exact (ih n).trans (Nat.le_succ _)
    | zero =>
      unfold replaceChars
      split_ifs
      · exact (ih _).trans (Nat.le_succ _)
      · exact Nat.succ_le_succ (ih 0)

/-- What is left out makes the text shorter. -/
theorem replaceChars_eq_or_length_lt (s : List Char) (l : List Char) :
    replaceChars s 0 l = l ∨ (replaceChars s 0 l).length < l.length := by
  induction l with
  | nil =>
    unfold replaceChars
    exact Or.inl rfl
  | cons c l ih =>
    unfold replaceChars
    split_ifs
    · exact Or.inr (Nat.lt_succ_of_le (length_replaceChars_le s _ l))
    · rcases ih with heq | hlt
      · exact Or.inl (congrArg (c :: ·) heq)
      · exact Or.inr (Nat.succ_lt_succ hlt)

/-- Leaving the prefix out first makes no difference. -/
theorem withoutText_withoutPrefix (s u : String) :
    withoutText s (withoutPrefix s u) = withoutText s u := by
  unfold withoutText withoutPrefix
  rw [String.toList_ofList]
  split_ifs with hprefix
  · congr 1
    obtain ⟨t, ht⟩ := List.isPrefixOf_iff_prefix.mp hprefix
    cases hs : s.toList with
    | nil =>
      have hlen : s.length = 0 := by rw [← String.length_toList, hs, List.length_nil]
      rw [hlen, List.drop_zero]
    | cons a s' =>
      have hlen : s.length = s'.length + 1 := by
        rw [← String.length_toList, hs, List.length_cons]
      rw [← ht, hs, hlen, List.cons_append, List.drop_succ_cons, List.drop_left]
      unfold replaceChars
      have hif : (a :: s') ≠ [] ∧ (a :: s').isPrefixOf (a :: (s' ++ t)) = true :=
        ⟨List.cons_ne_nil a s', List.isPrefixOf_iff_prefix.mpr ⟨t, rfl⟩⟩
      rw [if_pos hif, replaceChars_eq_drop, List.length_cons, Nat.add_sub_cancel, List.drop_left]
      cases t <;> rfl
  · rfl

/-- A field whose name is not the one without the prefix has a shorter one. -/
theorem length_withoutText_lt {s u : String} (h : withoutText s u ≠ withoutPrefix s u) :
    (withoutText s u).length < (withoutPrefix s u).length := by
  rw [← withoutText_withoutPrefix] at h ⊢
  generalize withoutPrefix s u = x at h ⊢
  have hlength : ∀ y : String, y.length = y.toList.length := fun y => (String.length_toList).symm
  rw [hlength, hlength, withoutText, String.toList_ofList]
  rcases replaceChars_eq_or_length_lt s.toList x.toList with heq | hlt
  · refine absurd ?_ h
    rw [withoutText, heq, String.ofList_toList]
  · exact hlt

/-! ## One record -/

/-- The record `r'` has exactly the fields of `r`, under their names without the prefix. -/
def Own (s : String) (r r' : Record) : Prop :=
  ∀ x v, r'.lookup x = some v ↔ ∃ u, r.lookup u = some v ∧ withoutPrefix s u = x

/-- Leaving the text out of the names of the fields is taking off the prefix, and fields that are
named alike then have the same value. -/
structure Prefixed (s : String) (r : Record) : Prop where
  names : ∀ u ∈ r, withoutText s u = withoutPrefix s u
  values : ∀ u u' v v', r.lookup u = some v → r.lookup u' = some v' →
    withoutPrefix s u = withoutPrefix s u' → v = v'

/-- Each field of `this` is one of the record, without the prefix. -/
def Has (s : String) (r this : Record) : Prop := ∀ x ∈ this, ∃ u ∈ r, withoutPrefix s u = x

variable (env : Env)

/-- A record laid over what came before. -/
def laidOver (s : String) (r this : Record) : Record :=
  (env.order.order r.items).foldl (fun this p => this.insert (withoutText s p.1) p.2) this

variable {env} {s : String} {r this : Record}

variable (env s r this) in
/-- A field of the record has one of the values that end under its name; any other one is as
before. -/
theorem lookup_laidOver_cases (x : String) :
    (∃ u v, r.lookup u = some v ∧ withoutText s u = x
        ∧ (laidOver env s r this).lookup x = some v)
      ∨ (∀ u ∈ r, withoutText s u ≠ x) ∧ (laidOver env s r this).lookup x = this.lookup x := by
  have hfold : laidOver env s r this
      = ((env.order.order r.items).map (fun p => (withoutText s p.1, p.2))).foldl
        (fun d p => AList.insert p.1 p.2 d) this := by
    rw [List.foldl_map]
    rfl
  rw [hfold]
  rcases Dict.lookup_foldl_insert_cases
      ((env.order.order r.items).map (fun p => (withoutText s p.1, p.2))) this x with
    ⟨v, hv, hlook⟩ | ⟨hnot, hlook⟩
  · left
    obtain ⟨⟨u, w⟩, hmem, heq⟩ := List.mem_map.mp hv
    obtain ⟨hx, rfl⟩ := Prod.mk.inj heq
    exact ⟨u, w, Dict.mem_items.mp (env.order.mem_order.mp hmem), hx, hlook⟩
  · right
    refine ⟨fun u hu hx => ?_, hlook⟩
    obtain ⟨v, hv⟩ := Dict.mem_iff_lookup.mp hu
    refine hnot v (List.mem_map.mpr ⟨(u, v), ?_, by rw [← hx]⟩)
    exact env.order.mem_order.mpr (Dict.mem_items.mpr hv)

/-- Every name of what came before, and of the record, is one of what is left. -/
theorem mem_laidOver {x : String} :
    x ∈ laidOver env s r this ↔ (∃ u ∈ r, withoutText s u = x) ∨ x ∈ this := by
  rcases lookup_laidOver_cases env s r this x with
    ⟨u, v, hu, hx, hlook⟩ | ⟨hnot, hlook⟩
  · have hur : u ∈ r := Dict.mem_iff_lookup.mpr ⟨v, hu⟩
    exact iff_of_true (Dict.mem_iff_lookup.mpr ⟨v, hlook⟩) (Or.inl ⟨u, hur, hx⟩)
  · rw [Dict.mem_iff_lookup, hlook, ← Dict.mem_iff_lookup]
    constructor
    · exact Or.inr
    · rintro (⟨u, hu, hx⟩ | hx)
      · exact absurd hx (hnot u hu)
      · exact hx

/-- A record that has exactly its own fields has no name from which more than the prefix is left
out: of those with the longest name without the prefix, one would be missing. -/
theorem names_of_own (hthis : ∀ x ∈ this, withoutText s x = x)
    (h : Own s r (laidOver env s r this)) : ∀ u ∈ r, withoutText s u = withoutPrefix s u := by
  by_contra hnot
  push Not at hnot
  obtain ⟨u₀, hu₀, hbad₀⟩ := hnot
  let bad := r.keys.toFinset.filter (fun u => withoutText s u ≠ withoutPrefix s u)
  have hbad : ∀ u, u ∈ bad ↔ u ∈ r ∧ withoutText s u ≠ withoutPrefix s u := by
    intro u
    rw [Finset.mem_filter, List.mem_toFinset, AList.mem_keys]
  obtain ⟨u, hu, hmax⟩ := bad.exists_max_image (fun u => (withoutPrefix s u).length)
    ⟨u₀, (hbad u₀).mpr ⟨hu₀, hbad₀⟩⟩
  obtain ⟨hur, hne⟩ := (hbad u).mp hu
  obtain ⟨v, hv⟩ := Dict.mem_iff_lookup.mp hur
  have hmem : withoutPrefix s u ∈ laidOver env s r this :=
    Dict.mem_iff_lookup.mpr ⟨v, (h _ v).mpr ⟨u, hv, rfl⟩⟩
  rcases mem_laidOver.mp hmem with ⟨u', hu', heq⟩ | hold
  · by_cases hfixed : withoutText s u' = withoutPrefix s u'
    · apply hne
      rw [← withoutText_withoutPrefix, ← heq, hfixed, withoutText_withoutPrefix, hfixed]
    · have hle := hmax u' ((hbad u').mpr ⟨hu', hfixed⟩)
      have hlt := length_withoutText_lt hfixed
      rw [heq] at hlt
      exact absurd hlt (Nat.not_lt_of_le hle)
  · apply hne
    rw [← withoutText_withoutPrefix, hthis _ hold]

/-- **One record**: laid over what came before it has exactly its own fields where its names have
the text as a prefix only, and it has all the fields that came before. -/
theorem own_laidOver_iff (hthis : ∀ x ∈ this, withoutText s x = x) :
    Own s r (laidOver env s r this) ↔ Prefixed s r ∧ Has s r this := by
  constructor
  · intro h
    refine ⟨⟨names_of_own hthis h, fun u u' v v' hu hu' heq => ?_⟩, fun x hx => ?_⟩
    · have hv := (h _ v).mpr ⟨u, hu, rfl⟩
      have hv' := (h _ v').mpr ⟨u', hu', heq.symm⟩
      exact Option.some.inj (hv.symm.trans hv')
    · have hmem : x ∈ laidOver env s r this := mem_laidOver.mpr (Or.inr hx)
      obtain ⟨v, hv⟩ := Dict.mem_iff_lookup.mp hmem
      obtain ⟨u, hu, rfl⟩ := (h x v).mp hv
      exact ⟨u, Dict.mem_iff_lookup.mpr ⟨v, hu⟩, rfl⟩
  · rintro ⟨⟨hnames, hvalues⟩, hhas⟩ x v
    rcases lookup_laidOver_cases env s r this x with
      ⟨u, w, hu, hx, hlook⟩ | ⟨hnot, hlook⟩
    · have hname : withoutPrefix s u = x := by
        rw [← hnames u (Dict.mem_iff_lookup.mpr ⟨w, hu⟩), hx]
      rw [hlook, Option.some.injEq]
      constructor
      · rintro rfl
        exact ⟨u, hu, hname⟩
      · rintro ⟨u', hu', hx'⟩
        exact hvalues u u' w v hu hu' (hname.trans hx'.symm)
    · have hnone : ∀ u ∈ r, withoutPrefix s u ≠ x := fun u hu hx => hnot u hu (hnames u hu ▸ hx)
      have hold : this.lookup x = none := by
        refine AList.lookup_eq_none.mpr (fun hx => ?_)
        obtain ⟨u, hu, heq⟩ := hhas x hx
        exact hnone u hu heq
      rw [hlook, hold]
      refine iff_of_false (fun h => nomatch h) ?_
      rintro ⟨u, hu, hx⟩
      exact hnone u (Dict.mem_iff_lookup.mpr ⟨v, hu⟩) hx

/-! ## The records of a group -/

/-- The later record has each field of the earlier one, up to the prefix. -/
def Covers (s : String) (earlier later : Record) : Prop :=
  ∀ u ∈ earlier, ∃ u' ∈ later, withoutPrefix s u' = withoutPrefix s u

/-- A record with all fields that came before leaves just its own names. -/
theorem mem_laidOver_of_has (hr : Prefixed s r) (hhas : Has s r this) {x : String} :
    x ∈ laidOver env s r this ↔ ∃ u ∈ r, withoutPrefix s u = x := by
  rw [mem_laidOver]
  constructor
  · rintro (⟨u, hu, rfl⟩ | hx)
    · exact ⟨u, hu, (hr.names u hu).symm⟩
    · exact hhas x hx
  · rintro ⟨u, hu, rfl⟩
    exact Or.inl ⟨u, hu, hr.names u hu⟩

theorem has_laidOver_iff (hr : Prefixed s r) (hhas : Has s r this) (r' : Record) :
    Has s r' (laidOver env s r this) ↔ Covers s r r' := by
  constructor
  · exact fun h u hu => h _ ((mem_laidOver_of_has hr hhas).mpr ⟨u, hu, rfl⟩)
  · intro h x hx
    obtain ⟨u, hu, rfl⟩ := (mem_laidOver_of_has hr hhas).mp hx
    exact h u hu

/-- What came before is among the fields of a record that has those of the one between. -/
theorem Has.of_covers (hhas : Has s r this) {r' : Record} (h : Covers s r r') : Has s r' this := by
  intro x hx
  obtain ⟨u, hu, rfl⟩ := hhas x hx
  exact h u hu

/-- **The records of a group**: each has exactly its own fields where its names have the text as
a prefix only and it has all the fields of the records before it. -/
theorem forall₂_own_iff (look : Ref → Record) (refs : List Ref) {this : Record}
    (hthis : ∀ x ∈ this, withoutText s x = x) :
    List.Forall₂ (Own s) (refs.map look) (mergedRecords env look s refs this)
      ↔ (∀ ref ∈ refs, Prefixed s (look ref) ∧ Has s (look ref) this)
        ∧ refs.Pairwise (fun ref ref' => Covers s (look ref) (look ref')) := by
  induction refs generalizing this with
  | nil =>
    refine iff_of_true List.Forall₂.nil ⟨fun ref href => ?_, List.Pairwise.nil⟩
    exact absurd href List.not_mem_nil
  | cons ref refs ih =>
    show List.Forall₂ (Own s) (look ref :: refs.map look) (laidOver env s (look ref) this
      :: mergedRecords env look s refs (laidOver env s (look ref) this)) ↔ _
    rw [List.forall₂_cons, own_laidOver_iff hthis, List.forall_mem_cons, List.pairwise_cons]
    refine Iff.trans (and_congr_right (fun hown => ?_)) and_assoc.symm
    obtain ⟨hprefixed, hhas⟩ := hown
    -- the names that are left have nothing to leave out any more
    have hleft : ∀ x ∈ laidOver env s (look ref) this, withoutText s x = x := by
      intro x hx
      obtain ⟨u, hu, rfl⟩ := (mem_laidOver_of_has hprefixed hhas).mp hx
      rw [withoutText_withoutPrefix, hprefixed.names u hu]
    rw [ih hleft]
    constructor
    · rintro ⟨hrest, hpairwise⟩
      have hcovers : ∀ ref' ∈ refs, Covers s (look ref) (look ref') := fun ref' href' =>
        (has_laidOver_iff hprefixed hhas _).mp (hrest ref' href').2
      exact ⟨fun ref' href' => ⟨(hrest ref' href').1, hhas.of_covers (hcovers ref' href')⟩,
        hcovers, hpairwise⟩
    · rintro ⟨hrest, hcovers, hpairwise⟩
      exact ⟨fun ref' href' => ⟨(hrest ref' href').1,
        (has_laidOver_iff hprefixed hhas _).mpr (hcovers ref' href')⟩, hpairwise⟩

/-! ## All groups -/

/-- The records of the groups that are merged, each with the text of its group, in the order in
which they are gone through. -/
def sources (env : Env) (w : World) : List (String × String) → List (String × Record)
  | [] => []
  | (k, s) :: l => (match w.data.lookup k with
    | none => []
    | some items => ((env.order.order items.items).map Prod.snd).map (fun ref => (s, w.records ref)))
      ++ sources env w l

/-- For each record of the groups, and for nothing else, a record of its own is yielded, with
exactly its fields. -/
def Isolated (env : Env) (g : String) (d : Ref) (w : World) (defn : Dict String String) : Prop :=
  ∃ refs w', step env g d w (.post_merge defn) = .ok (refs.map (fun r => some (g, r)), w')
    ∧ refs.Nodup ∧ (∀ r ∈ refs, w.next ≤ r)
    ∧ List.Forall₂ (fun p r => Own p.1 p.2 (w'.records r))
      (sources env w (env.order.order defn.items)) refs

/-- The condition on the records of a group. -/
structure Aligned (env : Env) (w : World) (s : String) (items : Dict String Ref) : Prop where
  prefixed : ∀ k ref, items.lookup k = some ref → Prefixed s (w.records ref)
  covers : ((env.order.order items.items).map Prod.snd).Pairwise
    (fun ref ref' => Covers s (w.records ref) (w.records ref'))

theorem forall₂_append_iff {α β : Type} {R : α → β → Prop} {a c : List α} {b d : List β}
    (hlen : a.length = b.length) :
    List.Forall₂ R (a ++ c) (b ++ d) ↔ List.Forall₂ R a b ∧ List.Forall₂ R c d := by
  induction a generalizing b with
  | nil =>
    rw [List.eq_nil_of_length_eq_zero hlen.symm]
    exact ⟨fun h => ⟨List.Forall₂.nil, h⟩, And.right⟩
  | cons x a ih =>
    cases b with
    | nil => cases hlen
    | cons y b =>
      rw [List.cons_append, List.cons_append, List.forall₂_cons, List.forall₂_cons,
        ih (Nat.succ.inj hlen), and_assoc]

theorem length_mergedRecords (look : Ref → Record) (s : String) (refs : List Ref) (this : Record) :
    (mergedRecords env look s refs this).length = refs.length := by
  induction refs generalizing this with
  | nil => rfl
  | cons ref refs ih => exact congrArg (· + 1) (ih _)

theorem aligned_iff (w : World) (s : String) (items : Dict String Ref) :
    List.Forall₂ (fun (p : String × Record) r => Own p.1 p.2 r)
        (((env.order.order items.items).map Prod.snd).map (fun ref => (s, w.records ref)))
        (mergedRecords env w.records s ((env.order.order items.items).map Prod.snd) ∅)
      ↔ Aligned env w s items := by
  rw [List.forall₂_map_left_iff, ← List.forall₂_map_left_iff (f := w.records) (R := Own s),
    forall₂_own_iff w.records _ (fun x hx => absurd hx (AList.notMem_empty x))]
  constructor
  · rintro ⟨hrecords, hcovers⟩
    refine ⟨fun k ref hk => (hrecords ref ?_).1, hcovers⟩
    exact List.mem_map.mpr ⟨(k, ref), env.order.mem_order.mpr (Dict.mem_items.mpr hk), rfl⟩
  · rintro ⟨hprefixed, hcovers⟩
    refine ⟨fun ref href => ⟨?_, fun x hx => absurd hx (AList.notMem_empty x)⟩, hcovers⟩
    obtain ⟨p, hp, rfl⟩ := List.mem_map.mp href
    exact hprefixed p.1 p.2 (Dict.mem_items.mp (env.order.mem_order.mp hp))

theorem forall₂_mergedGroups_iff (w : World) (l : List (String × String)) :
    List.Forall₂ (fun (p : String × Record) r => Own p.1 p.2 r) (sources env w l)
        (mergedGroups env w l)
      ↔ ∀ p ∈ l, ∀ items, w.data.lookup p.1 = some items → Aligned env w p.2 items := by
  induction l with
  | nil => exact iff_of_true List.Forall₂.nil (fun p hp => absurd hp List.not_mem_nil)
  | cons p l ih =>
    obtain ⟨k, s⟩ := p
    unfold sources mergedGroups
    rw [List.forall_mem_cons]
    cases hitems : w.data.lookup k with
    | none =>
      dsimp only
      rw [List.nil_append, List.nil_append, ih]
      constructor
      · intro h
        refine ⟨fun items h' => ?_, h⟩
        cases h'
      · exact And.right
    | some items =>
      dsimp only
      have hlen : (((env.order.order items.items).map Prod.snd).map
          (fun ref => (s, w.records ref))).length
          = (mergedRecords env w.records s ((env.order.order items.items).map Prod.snd) ∅).length := by
        rw [length_mergedRecords, List.length_map]
      rw [forall₂_append_iff hlen, ih, aligned_iff]
      refine and_congr_left (fun _ => ?_)
      exact ⟨fun h items' h' => Option.some.inj h' ▸ h, fun h => h items rfl⟩

/-- **Records in isolation**: each record of the groups is yielded once with exactly its own fields
where, in every group, the names have the text as a prefix only, and each record has all the
fields of those before it. -/
theorem isolated_iff (env : Env) (g : String) (d : Ref) {w : World} (defn : Dict String String)
    (hdata : ∀ k r, Owns w.data k r → r < w.next) :
    Isolated env g d w defn ↔ ∀ k s items, defn.lookup k = some s →
      w.data.lookup k = some items → Aligned env w s items := by
  have hgrown : Grown g w (mergeGroups env g (env.order.order defn.items) w).2
      (mergeGroups env g (env.order.order defn.items) w).1
      (mergedGroups env w (env.order.order defn.items)) :=
    grown_mergeGroups env g rfl (fun p _ r hr => ⟨hdata p.1 r hr, rfl⟩)
  obtain ⟨refs, hys, hnodup, hrefs, hrecords⟩ := hgrown.refs
  have hstep : step env g d w (.post_merge defn) = .ok (refs.map (fun r => some (g, r)),
      (mergeGroups env g (env.order.order defn.items) w).2) := by
    rw [← hys]
    rfl
  have hall : (∀ p ∈ env.order.order defn.items, ∀ items, w.data.lookup p.1 = some items →
      Aligned env w p.2 items) ↔ ∀ k s items, defn.lookup k = some s →
        w.data.lookup k = some items → Aligned env w s items := by
    constructor
    · intro h k s items hk
      exact h (k, s) (env.order.mem_order.mpr (Dict.mem_items.mpr hk)) items
    · intro h p hp items
      exact h p.1 p.2 items (Dict.mem_items.mp (env.order.mem_order.mp hp))
  rw [← hall, ← forall₂_mergedGroups_iff, ← hrecords, List.forall₂_map_right_iff]
  constructor
  · rintro ⟨refs', w', hstep', -, -, hown⟩
    obtain ⟨hrefs', rfl⟩ := Prod.mk.inj (Except.ok.inj (hstep.symm.trans hstep'))
    have heq : refs = refs' := List.map_injective_iff.mpr
      (fun a b hab => (Prod.mk.inj (Option.some.inj hab)).2) hrefs'
    rw [heq]
    exact hown
  · exact fun hown => ⟨refs, _, hstep, hnodup, fun r hr => (hrefs r hr).1, hown⟩

/-! The modules of a switch, in two groups. -/

/-- Both modules have a serial number. -/
def serialsWorld : World where
  records := fun r => if r = 0 then
      Dict.ofList [("module_slot", .int 2), ("module_serial", .str "SAL2")]
    else Dict.ofList [("module_slot", .int 1), ("module_serial", .str "SAL1")]
  next := 2
  data := Dict.ofList [("module", Dict.ofList [("2", 0), ("1", 1)])]

theorem prefixed_serials (ref : Ref) : Prefixed "module_" (serialsWorld.records ref) := by
  have hnames : ∀ ref ∈ [0, 1], (∀ p ∈ (serialsWorld.records ref).items,
      withoutText "module_" p.1 = withoutPrefix "module_" p.1)
      ∧ ∀ p ∈ (serialsWorld.records ref).items, ∀ q ∈ (serialsWorld.records ref).items,
        withoutPrefix "module_" p.1 = withoutPrefix "module_" q.1 → p.2 = q.2 := by
    decide
  have hrecord : ∃ ref' ∈ [0, 1], serialsWorld.records ref = serialsWorld.records ref' := by
    by_cases href : ref = 0
    · exact ⟨0, by decide, by rw [href]⟩
    · exact ⟨1, by decide, if_neg href⟩
  obtain ⟨ref', href', heq⟩ := hrecord
  obtain ⟨htext, hvalues⟩ := hnames ref' href'
  rw [heq]
  refine ⟨fun u hu => ?_, fun u u' v v' hv hv' h => ?_⟩
  · obtain ⟨v, hv⟩ := Dict.mem_iff_lookup.mp hu
    exact htext (u, v) (Dict.mem_items.mpr hv)
  · exact hvalues (u, v) (Dict.mem_items.mpr hv) (u', v') (Dict.mem_items.mpr hv') h

theorem isolated_iff_serials : Isolated sampleEnv "inventory" 2 serialsWorld
    (Dict.ofList [("module", "module_")]) := by
  refine (isolated_iff sampleEnv "inventory" 2 _ (fun k r hr => ?_)).mpr
    (fun k s items hk hitems => ?_)
  · obtain ⟨items, i, hk, hi⟩ := hr
    have hgroups : ∀ p ∈ serialsWorld.data.items, ∀ q ∈ p.2.items, q.2 < serialsWorld.next := by
      decide
    exact hgroups (k, items) (Dict.mem_items.mpr hk) (i, r) (Dict.mem_items.mpr hi)
  · obtain ⟨rfl, rfl⟩ := Prod.mk.inj (List.mem_singleton.mp (Dict.mem_items.mpr hk))
    obtain ⟨-, rfl⟩ := Prod.mk.inj (List.mem_singleton.mp (Dict.mem_items.mpr hitems))
    refine ⟨fun _ ref _ => prefixed_serials ref, ?_⟩
    have hfields : ∀ u ∈ (serialsWorld.records 1).keys, u ∈ (serialsWorld.records 0).keys := by
      decide
    have hcovers : Covers "module_" (serialsWorld.records 1) (serialsWorld.records 0) :=
      fun u hu => ⟨u, AList.mem_keys.mpr (hfields u (AList.mem_keys.mp hu)), rfl⟩
    exact List.pairwise_pair.mpr hcovers

/-- The second module in the order has no serial number. -/
def modulesWorld : World where
  records := fun r => if r = 0 then Dict.ofList [("module_slot", .int 2)]
    else Dict.ofList [("module_slot", .int 1), ("module_serial", .str "SAL1")]
  next := 2
  data := Dict.ofList [("module", Dict.ofList [("2", 0), ("1", 1)])]

def modulesDefn : Dict String String := Dict.ofList [("module", "module_")]

/-- The second module is yielded with the serial number of the first one. -/
theorem not_isolated_modules :
    ¬ Isolated sampleEnv "inventory" 2 modulesWorld modulesDefn := by
  rintro ⟨refs, w', hstep, -, -, hown⟩
  have hyields : step sampleEnv "inventory" 2 modulesWorld (.post_merge modulesDefn)
      = .ok ([some ("inventory", 2), some ("inventory", 3)],
        (mergeGroups sampleEnv "inventory" modulesDefn.items modulesWorld).2) := by
    rfl
  obtain ⟨hrefs, rfl⟩ := Prod.mk.inj (Except.ok.inj (hyields.symm.trans hstep))
  have hrefs' : refs = [2, 3] := by
    have hinj : Function.Injective (fun r : Ref => some ("inventory", r)) :=
      fun a b hab => (Prod.mk.inj (Option.some.inj hab)).2
    have hmap : [2, 3].map (fun r : Ref => some ("inventory", r))
        = refs.map (fun r => some ("inventory", r)) := hrefs
    exact (List.map_injective_iff.mpr hinj hmap).symm
  rw [hrefs'] at hown
  have hsources : sources sampleEnv modulesWorld (sampleEnv.order.order modulesDefn.items)
      = [("module_", modulesWorld.records 1), ("module_", modulesWorld.records 0)] := by
    rfl
  rw [hsources] at hown
  cases hown with
  | cons _ hrest =>
    cases hrest with
    | cons hsecond _ =>
      obtain ⟨u, hu, hx⟩ := (hsecond "serial" (.str "SAL1")).mp (by decide)
      have hfields : ∀ p ∈ (modulesWorld.records 0).items,
          withoutPrefix "module_" p.1 ≠ "serial" := by decide
      exact hfields (u, .str "SAL1") (Dict.mem_items.mpr hu) hx

end Driver
