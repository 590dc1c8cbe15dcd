/-
# The bulk walk over a view

An agent holds a finite view of variables in the lexicographic order of their
identifiers.  To a request it gives the successors of the identifier asked for, as many
as fit, and where they come to an end it repeats the last identifier with
`endOfMibView` in place of a value.

A column ends where a row of another column follows.  When nothing follows, the row that
says `endOfMibView` is named like the last instance, and `Gatherer.collect` puts it in
the place of that instance.

The walk also rests on what `decode` makes of the instances, on the types of all
variables in the responses, wanted or not, and on the labels that are kept under the
name of the column.
-/
import Ptolemy.BulkWalk

namespace NetSNMP

/-! ## Views and agents -/

/-- What is there to be read, as opposed to what an agent says instead of a value. -/
def Variable.IsValue : Variable → Bool
  | .noSuchObject | .noSuchInstance | .endOfMibView => false
  | _ => true

/-- A view: the variables in their order, each with a value. -/
structure View : Type where
  binds : List (Oid × Variable)
  sorted : (binds.map Prod.fst).Pairwise (· < ·)
  values : ∀ b ∈ binds, b.2.IsValue = true

namespace View

/-- The successors of an identifier. -/
def succs (view : View) (r : Oid) : List (Oid × Variable) := view.binds.filter (fun b => r < b.1)

/-- The last successor, or the identifier that was asked for. -/
def lastSucc (view : View) (r : Oid) : Oid := ((view.succs r).getLast?.map Prod.fst).getD r

/-- The first `n` rows for a request. -/
def respond (view : View) (n : ℕ) (r : Oid) : Pdu where
  vars := (view.succs r ++ List.replicate n (view.lastSucc r, Variable.endOfMibView)).take n

end View

def maxRepeaters : ℕ := 100

/-- An agent: how many rows fit into the response to each request. -/
structure Agent : Type where
  view : View
  fits : ℕ → Oid → ℕ
  fits_pos : ∀ k r, 0 < fits k r
  fits_le : ∀ k r, fits k r ≤ maxRepeaters

/-- The response to a request, which has a number and an identifier. -/
def Agent.respond (agent : Agent) (c : ℕ × Oid) : Pdu :=
  agent.view.respond (agent.fits c.1 c.2) c.2

def Agent.answer (agent : Agent) (k : ℕ) (r : Oid) : Except Exn Pdu := .ok (agent.respond (k, r))

/-- A request follows another one whose response ends within the column: it asks for the last
identifier of that. -/
def Agent.Next (agent : Agent) (column : Oid) (c c' : ℕ × Oid) : Prop :=
  c'.1 = c.1 + 1 ∧ column <+: c'.2 ∧ ∃ var, (agent.respond c).rows.getLast? = some (c'.2, var)

/-- The types of the variables in a response can be decoded. -/
def Agent.Decodable (agent : Agent) (c : ℕ × Oid) : Prop :=
  ∀ b ∈ (agent.respond c).rows, ∃ v, decodeVariable b.2 = .ok v

/-! ## What is collected -/

/-- `Gatherer.collect`. -/
def collect (out : List (Option String × Option String × Got)) :
    Dict (Option String) (Dict (Option String) Got) :=
  out.foldl (fun d y => d.insert y.1 (((d.lookup y.1).getD ∅).insert y.2.1 y.2.2)) ∅

/-- An instance of a column has an index behind the identifier of the column. -/
def IsInstance (column o : Oid) : Prop := column <+: o ∧ column ≠ o

instance (column o : Oid) : Decidable (IsInstance column o) := inferInstanceAs (Decidable (_ ∧ _))

variable (mib : Mib)

/-- The map has the instances of the column with their decoded values, each at an index of its own,
and nothing else. -/
structure Exact (view : View) (column : Oid) (name : String)
    (m : Dict (Option String) (Dict (Option String) Got)) : Prop where
  entry : ∀ f iid v, ((m.lookup f).getD ∅).lookup iid = some v ↔
    f = some name ∧ ∃ b ∈ view.binds, IsInstance column b.1 ∧ (mib.decode b.1).2 = iid
      ∧ v = present (mib.enums b.1) b.2.got
  apart : ∀ b ∈ view.binds, ∀ b' ∈ view.binds, IsInstance column b.1 → IsInstance column b'.1 →
    (mib.decode b.1).2 = (mib.decode b'.1).2 → b = b'

/-- What the library knows of a column: its identifier, the texts of it and of its instances, and
that these have the enumeration of the column.  Nothing behind the column has its label. -/
structure Names (view : View) (column : Oid) (name : String) : Prop where
  label : IsLabel name
  node : mib.getModuleNode name "ANY" = some column
  text : ∃ module : String, ':' ∉ module.toList ∧
    mib.snprintObjid column = module ++ "::" ++ name
  instText : ∀ b ∈ view.binds, IsInstance column b.1 → ∃ module index : String,
    ':' ∉ module.toList ∧ mib.snprintObjid b.1 = module ++ "::" ++ name ++ "." ++ index
  enums : ∀ b ∈ view.binds, IsInstance column b.1 → mib.enums b.1 = mib.enums column
  foreign : ∀ b ∈ view.binds, column < b.1 → ¬ column <+: b.1 → (mib.decode b.1).1 ≠ some name

/-- **What makes a walk exact**: something comes behind the column, its instances can be decoded and
told apart, so can the types of all variables that the agent is asked for, and the labels that are
kept under the name are those of the column, as far as its values go. -/
structure Walkable (agent : Agent) (cache : EnumCache) (column : Oid) (name : String) : Prop where
  behind : ∃ b ∈ agent.view.binds, column < b.1 ∧ ¬ column <+: b.1
  indexed : ∀ b ∈ agent.view.binds, IsInstance column b.1 → (mib.decode b.1).2 ≠ none
  apart : ∀ b ∈ agent.view.binds, ∀ b' ∈ agent.view.binds, IsInstance column b.1 →
    IsInstance column b'.1 → (mib.decode b.1).2 = (mib.decode b'.1).2 → b = b'
  decodable : ∀ c, Relation.ReflTransGen (agent.Next column) (0, column) c → agent.Decodable c
  labels : ∀ labels, cache.lookup (some name) = some labels → ∀ b ∈ agent.view.binds,
    IsInstance column b.1 → present labels b.2.got = present (mib.enums b.1) b.2.got

/-! ## Identifiers in their order -/

theorem lt_of_isInstance {column o : Oid} (h : IsInstance column o) : column < o := by
  obtain ⟨⟨l, rfl⟩, hne⟩ := h
  cases l with
  | nil => exact absurd (List.append_nil column).symm hne
  | cons a l =>
    clear hne
    induction column with
    | nil => exact List.nil_lt_cons a l
    | cons c column ih => exact List.cons_lt_cons_iff.mpr (Or.inr ⟨rfl, ih⟩)

/-- What comes behind a column comes behind its instances. -/
theorem lt_of_prefix {column o o' : Oid} (ho : column <+: o) (hlt : column < o')
    (hnot : ¬ column <+: o') : o < o' := by
  induction column generalizing o o' with
  | nil => exact absurd (List.nil_prefix) hnot
  | cons c column ih =>
    obtain ⟨l, rfl⟩ := ho
    cases o' with
    | nil => exact absurd hlt (List.not_lt_nil _)
    | cons d o' =>
      rw [List.cons_append]
      rcases List.cons_lt_cons_iff.mp hlt with h | ⟨rfl, h⟩
      · exact List.cons_lt_cons_iff.mpr (Or.inl h)
      · refine List.cons_lt_cons_iff.mpr (Or.inr ⟨rfl, ih ⟨l, rfl⟩ h (fun hp => hnot ?_)⟩)
        exact (List.prefix_cons_inj c).mpr hp

/-- A sorted list falls apart into a part that comes first and the rest. -/
theorem filter_append_filter_not {l : List (Oid × Variable)} (p : Oid × Variable → Bool)
    (hl : l.Pairwise (fun b b' => b.1 < b'.1))
    (hp : ∀ b ∈ l, ∀ b' ∈ l, p b = true → p b' = false → b.1 < b'.1) :
    l = l.filter p ++ l.filter (fun b => !p b) := by
  induction l with
  | nil => rfl
  | cons b l ih =>
    obtain ⟨hb, hl'⟩ := List.pairwise_cons.mp hl
    have hrest := ih hl' (fun b₁ h₁ b₂ h₂ =>
      hp b₁ (List.mem_cons_of_mem b h₁) b₂ (List.mem_cons_of_mem b h₂))
    by_cases hpb : p b = true
    · rw [List.filter_cons_of_pos hpb, List.filter_cons_of_neg (by simp [hpb]), List.cons_append,
        ← hrest]
    · -- nothing that comes first is left
      have hnone : l.filter p = [] := by
        rw [List.filter_eq_nil_iff]
        intro b' hb' hpb'
        have hlt : b'.1 < b.1 := hp b' (List.mem_cons_of_mem b hb') b List.mem_cons_self hpb'
          (Bool.not_eq_true _ ▸ hpb)
        exact List.lt_asymm hlt (hb b' hb')
      rw [hnone, List.nil_append] at hrest
      rw [List.filter_cons_of_neg hpb, hnone, List.filter_cons_of_pos (by simpa using hpb),
        List.nil_append, ← hrest]

namespace View

variable (view : View)

theorem pairwise_binds : view.binds.Pairwise (fun b b' => b.1 < b'.1) :=
  List.pairwise_map.mp view.sorted

/-- The successors of a successor are those behind it. -/
theorem succs_of_succs {r : Oid} {l l' : List (Oid × Variable)} {b : Oid × Variable}
    (h : view.succs r = l ++ b :: l') : view.succs b.1 = l' := by
  have hb : b ∈ view.succs r := h ▸ List.mem_append_right l List.mem_cons_self
  have hr : r < b.1 := of_decide_eq_true (List.mem_filter.mp hb).2
  have hagain : view.succs b.1 = (view.succs r).filter (fun b' => b.1 < b'.1) := by
    unfold succs
    rw [List.filter_filter]
    refine List.filter_congr (fun b' _ => ?_)
    rw [← Bool.decide_and]
    exact decide_eq_decide.mpr ⟨fun hlt => ⟨hlt, List.lt_trans hr hlt⟩, fun hlt => hlt.1⟩
  have hsorted : (l ++ b :: l').Pairwise (fun b b' => b.1 < b'.1) :=
    h ▸ view.pairwise_binds.filter _
  obtain ⟨-, hright, hcross⟩ := List.pairwise_append.mp hsorted
  obtain ⟨hbehind, -⟩ := List.pairwise_cons.mp hright
  have hbefore : l.filter (fun b' => decide (b.1 < b'.1)) = [] := by
    rw [List.filter_eq_nil_iff]
    intro b' hb' hlt
    exact List.lt_asymm (hcross b' hb' b List.mem_cons_self) (of_decide_eq_true hlt)
  rw [hagain, h, List.filter_append, hbefore, List.nil_append, List.filter_cons_of_neg
    (by simp), List.filter_eq_self]
  exact fun b' hb' => decide_eq_true (hbehind b' hb')

/-- The instances of a column. -/
def instances (column : Oid) : List (Oid × Variable) :=
  (view.succs column).filter (fun b => decide (column <+: b.1))

/-- What comes behind a column. -/
def behind (column : Oid) : List (Oid × Variable) :=
  (view.succs column).filter (fun b => !decide (column <+: b.1))

theorem succs_column (column : Oid) :
    view.succs column = view.instances column ++ view.behind column := by
  refine filter_append_filter_not _ (view.pairwise_binds.filter _) (fun b _ b' hb' hp hnot => ?_)
  exact lt_of_prefix (of_decide_eq_true hp) (of_decide_eq_true (List.mem_filter.mp hb').2)
    (of_decide_eq_false hnot)

theorem mem_instances {column : Oid} {b : Oid × Variable} :
    b ∈ view.instances column ↔ b ∈ view.binds ∧ IsInstance column b.1 := by
  unfold instances succs
  rw [List.mem_filter, List.mem_filter, decide_eq_true_iff, decide_eq_true_iff]
  constructor
  · rintro ⟨⟨hb, hlt⟩, hp⟩
    exact ⟨hb, hp, fun heq => List.lt_irrefl column (heq ▸ hlt)⟩
  · rintro ⟨hb, hi⟩
    exact ⟨⟨hb, lt_of_isInstance hi⟩, hi.1⟩

theorem mem_behind {column : Oid} {b : Oid × Variable} :
    b ∈ view.behind column ↔ b ∈ view.binds ∧ column < b.1 ∧ ¬ column <+: b.1 := by
  unfold behind succs
  rw [List.mem_filter, List.mem_filter, decide_eq_true_iff, Bool.not_eq_true', decide_eq_false_iff_not,
    and_assoc]

end View

/-! ## What is looked up in what is collected -/

/-- The value at a field and an instance. -/
def valueAt (m : Dict (Option String) (Dict (Option String) Got)) (f iid : Option String) :
    Option Got := ((m.lookup f).getD ∅).lookup iid

theorem valueAt_collect_concat (out : List (Option String × Option String × Got))
    (y : Option String × Option String × Got) (f iid : Option String) :
    valueAt (collect (out ++ [y])) f iid
      = if f = y.1 ∧ iid = y.2.1 then some y.2.2 else valueAt (collect out) f iid := by
  unfold valueAt collect
  rw [List.foldl_append, List.foldl_cons, List.foldl_nil, Dict.lookup_insert_eq]
  by_cases hf : f = y.1
  · subst hf
    rw [if_pos rfl, Option.getD_some, Dict.lookup_insert_eq]
    simp only [true_and]
  · rw [if_neg hf, if_neg (fun h => hf h.1)]

theorem valueAt_collect_last {out : List (Option String × Option String × Got)}
    {y : Option String × Option String × Got} (h : out.getLast? = some y) :
    valueAt (collect out) y.1 y.2.1 = some y.2.2 := by
  obtain ⟨l, rfl⟩ := List.getLast?_eq_some_iff.mp h
  rw [valueAt_collect_concat, if_pos ⟨rfl, rfl⟩]

/-- What is yielded once for each field and instance is collected as it is. -/
theorem valueAt_collect_iff {out : List (Option String × Option String × Got)}
    (h : (out.map (fun y => (y.1, y.2.1))).Nodup) {f iid : Option String} {v : Got} :
    valueAt (collect out) f iid = some v ↔ (f, iid, v) ∈ out := by
  induction out using List.reverseRecOn with
  | nil => exact ⟨fun h => (by cases h), fun h => absurd h List.not_mem_nil⟩
  | append_singleton out y ih =>
    rw [List.map_append, List.nodup_append] at h
    obtain ⟨hout, -, hcross⟩ := h
    rw [valueAt_collect_concat, List.mem_append, List.mem_singleton]
    by_cases hy : f = y.1 ∧ iid = y.2.1
    · obtain ⟨rfl, rfl⟩ := hy
      rw [if_pos ⟨rfl, rfl⟩, Option.some.injEq]
      constructor
      · rintro rfl
        exact Or.inr rfl
      · rintro (hmem | heq)
        · exact absurd rfl (hcross _ (List.mem_map_of_mem hmem) _ (List.mem_singleton_self _))
        · exact (congrArg (fun y => y.2.2) heq).symm
    · rw [if_neg hy, ih hout]
      refine (or_iff_left ?_).symm
      rintro rfl
      exact hy ⟨rfl, rfl⟩

theorem labelled_ne {labels : Dict Int String} {v : Got} (h : v ≠ .endOfMibView) :
    labelled labels v ≠ .endOfMibView := by
  unfold labelled
  split
  · split <;> exact fun h => by cases h
  · exact h

theorem present_ne {labels : Dict Int String} {v : Got} (h : v ≠ .endOfMibView) :
    present labels v ≠ .endOfMibView := by
  unfold present
  split_ifs
  · exact fun h => by cases h
  · exact labelled_ne h

theorem got_ne {var : Variable} (h : var.IsValue = true) : var.got ≠ .endOfMibView := by
  cases var with
  | noSuchObject | noSuchInstance | endOfMibView => cases h
  | _ => exact fun heq => by cases heq

/-- What is looked up has been yielded. -/
theorem exists_mem_of_valueAt {out : List (Option String × Option String × Got)}
    {f iid : Option String} {v : Got} (h : valueAt (collect out) f iid = some v) :
    ∃ y ∈ out, y.1 = f ∧ y.2.1 = iid := by
  induction out using List.reverseRecOn with
  | nil => cases h
  | append_singleton out y ih =>
    rw [valueAt_collect_concat] at h
    split_ifs at h with hy
    · exact ⟨y, List.mem_append_right _ (List.mem_singleton_self y), hy.1.symm, hy.2.symm⟩
    · obtain ⟨y', hy', heq⟩ := ih h
      exact ⟨y', List.mem_append_left _ hy', heq⟩

/-! ## The walk -/

section walk

variable {mib} {view : View} {column : Oid} {name : String} {s : Walk}
  {todo : List (Oid × Variable)} {labels : Dict Int String} {n k : ℕ}

variable (view n) in
/-- Where the values of a view can be decoded, so can its responses. -/
theorem decodes_respond (h : ∀ b ∈ view.binds, ∃ v, decodeVariable b.2 = .ok v) (r : Oid) :
    ∀ b ∈ (view.respond n r).rows, ∃ v, decodeVariable b.2 = .ok v := by
  intro b hb
  rcases List.mem_append.mp (List.mem_of_mem_take hb) with hb | hb
  · exact h b (List.mem_filter.mp hb).1
  · rw [(List.mem_replicate.mp hb).2]
    exact ⟨_, rfl⟩

theorem rows_respond (r : Oid) : (view.respond n r).rows
    = (view.succs r ++ List.replicate n (view.lastSucc r, Variable.endOfMibView)).take n := rfl

/-- What `decode` makes of the identifiers: only those of the column get its label, and its
instances are told apart. -/
structure Decoded (mib : Mib) (view : View) (column : Oid) (name : String) : Prop where
  label : (mib.decode column).1 = some name
  named : ∀ b ∈ view.instances column, (mib.decode b.1).1 = some name
  indexed : ∀ b ∈ view.instances column, (mib.decode b.1).2 ≠ none
  apart : ∀ b ∈ view.instances column, ∀ b' ∈ view.instances column,
    (mib.decode b.1).2 = (mib.decode b'.1).2 → b = b'
  foreign : ∀ b ∈ view.behind column, (mib.decode b.1).1 ≠ some name

theorem Names.decoded (hn : Names mib view column name)
    (hindexed : ∀ b ∈ view.binds, IsInstance column b.1 → (mib.decode b.1).2 ≠ none)
    (hapart : ∀ b ∈ view.binds, ∀ b' ∈ view.binds, IsInstance column b.1 → IsInstance column b'.1 →
      (mib.decode b.1).2 = (mib.decode b'.1).2 → b = b') : Decoded mib view column name where
  label := by
    obtain ⟨module, hm, htext⟩ := hn.text
    exact decode_of_column hm hn.label htext
  named := fun b hb => by
    obtain ⟨hbinds, hi⟩ := view.mem_instances.mp hb
    obtain ⟨module, index, hm, htext⟩ := hn.instText b hbinds hi
    exact decode_of_instance hm hn.label htext (hindexed b hbinds hi)
  indexed := fun b hb => by
    obtain ⟨hbinds, hi⟩ := view.mem_instances.mp hb
    exact hindexed b hbinds hi
  apart := fun b hb b' hb' => by
    obtain ⟨hbinds, hi⟩ := view.mem_instances.mp hb
    obtain ⟨hbinds', hi'⟩ := view.mem_instances.mp hb'
    exact hapart b hbinds b' hbinds' hi hi'
  foreign := fun b hb => by
    obtain ⟨hbinds, hlt, hnot⟩ := view.mem_behind.mp hb
    exact hn.foreign b hbinds hlt hnot

theorem Names.translate (hn : Names mib view column name) : mib.translate name = .ok column := by
  rw [translate_of_isLabel mib hn.label, Mib.nodeIn, hn.node]

/-- The walk has seen the instances but for those that are left. -/
structure Walking (mib : Mib) (view : View) (column : Oid) (name : String) (labels : Dict Int String)
    (todo : List (Oid × Variable)) (s : Walk) : Prop where
  goesOn : s.goesOn name = true
  named : (mib.decode s.thisOid).1 = some name
  succs : view.succs s.thisOid = todo ++ view.behind column
  isInstance : ∀ b ∈ todo, b ∈ view.instances column
  fresh : (s.lastIid :: todo.map (fun b => (mib.decode b.1).2)).Nodup
  kept : s.labels (some name) (mib.enums column) = labels
  out : s.out ++ yielded mib labels (some name) todo
    = yielded mib labels (some name) (view.instances column)

/-- The walk has been told that the view is at its end. -/
structure Ended (mib : Mib) (view : View) (name : String) (s : Walk) : Prop where
  named : (mib.decode s.thisOid).1 = some name
  succs : view.succs s.thisOid = []
  out : ∃ iid, s.out.getLast? = some (some name, iid, .endOfMibView)

theorem filter_named {rows : List (Oid × Variable)}
    (h : ∀ b ∈ rows, (mib.decode b.1).1 = some name) :
    rows.filter (fun b => decide ((mib.decode b.1).1 = some name)) = rows :=
  List.filter_eq_self.mpr (fun b hb => decide_eq_true (h b hb))

theorem filter_foreign {rows : List (Oid × Variable)}
    (h : ∀ b ∈ rows, (mib.decode b.1).1 ≠ some name) :
    rows.filter (fun b => decide ((mib.decode b.1).1 = some name)) = [] :=
  List.filter_eq_nil_iff.mpr (fun b hb => by simpa using h b hb)

/-- The walk goes on from the last row, where it is of the column. -/
theorem Seen.thisOid_concat {s' : Walk} {rows : List (Oid × Variable)} {b : Oid × Variable}
    (h : Seen mib (some name) (rows ++ [b]) s s') (hb : (mib.decode b.1).1 = some name) :
    s'.thisOid = b.1 := by
  have hone : [b].filter (fun b => decide ((mib.decode b.1).1 = some name)) = [b] :=
    filter_named (fun b' hb' => List.mem_singleton.mp hb' ▸ hb)
  rw [h.thisOid, lastOid, List.filter_append, hone, List.getLast?_concat]
  rfl

theorem walking_start (hn : Decoded mib view column name) (cache : EnumCache) :
    Walking mib view column name ((cache.lookup (some name)).getD (mib.enums column))
      (view.instances column) { thisF := some name, thisOid := column, cache := cache } := by
  refine ⟨goesOn_iff.mpr ⟨rfl, rfl⟩, hn.label, view.succs_column _, fun b hb => hb, ?_, rfl, rfl⟩
  rw [List.nodup_cons]
  constructor
  · intro hmem
    obtain ⟨b, hb, hnone⟩ := List.mem_map.mp hmem
    exact hn.indexed b hb hnone
  · have hnodup : (view.instances column).Nodup := by
      have hlt := (view.pairwise_binds.filter (fun b => decide (column < b.1))).filter
        (fun b => decide (column <+: b.1))
      refine hlt.imp (fun {b b'} hlt heq => ?_)
      exact List.lt_irrefl b.1 (heq ▸ hlt)
    exact List.Nodup.map_on hn.apart hnodup

/-- **A response within the column**: the walk goes on from its last row. -/
theorem Walking.inside (h : Walking mib view column name labels todo s)
    (hn : Decoded mib view column name)
    (henums : ∀ b ∈ view.instances column, mib.enums b.1 = mib.enums column)
    (hdecodes : ∀ b ∈ (view.respond n s.thisOid).rows, ∃ v, decodeVariable b.2 = .ok v)
    (hpos : 0 < n) (hle : n ≤ todo.length) :
    ∃ s', s.receive mib (some name) (view.respond n s.thisOid) = .ok s'
      ∧ Walking mib view column name labels (todo.drop n) s'
      ∧ column <+: s'.thisOid
      ∧ ∃ var, (view.respond n s.thisOid).rows.getLast? = some (s'.thisOid, var) := by
  have hrows : (view.respond n s.thisOid).rows = todo.take n := by
    rw [rows_respond, h.succs, List.append_assoc, List.take_append_of_le_length hle]
  obtain ⟨s', hs', hseen⟩ := exists_receive mib (some name) s hdecodes
  rw [hrows] at hseen
  -- the last row of the response
  obtain ⟨l, b, hl⟩ : ∃ l b, todo.take n = l ++ [b] := by
    have hne : todo.take n ≠ [] := by
      intro hnil
      have hlen := congrArg List.length hnil
      rw [List.length_take, List.length_nil] at hlen
      omega
    exact ⟨_, _, (List.dropLast_append_getLast hne).symm⟩
  have hb : b ∈ todo := List.mem_of_mem_take (hl ▸ List.mem_append_right l List.mem_cons_self)
  have hall : ∀ b ∈ todo.take n, (mib.decode b.1).1 = some name :=
    fun b hb => hn.named b (h.isInstance b (List.mem_of_mem_take hb))
  have hsplit : todo = todo.take n ++ todo.drop n := (List.take_append_drop n todo).symm
  have hiids : iids mib (some name) (todo.take n)
      = (todo.take n).map (fun b => (mib.decode b.1).2) := by
    rw [iids, filter_named hall]
  have hoid : s'.thisOid = b.1 :=
    Seen.thisOid_concat (hl ▸ hseen) (hn.named b (h.isInstance b hb))
  have hlast : s'.lastIid = (mib.decode b.1).2 := by
    rw [hseen.lastIid, hiids, hl, List.map_append, List.map_singleton, List.getLast?_concat]
    rfl
  obtain ⟨hkept, hout⟩ := hseen.out (mib.enums column)
    (fun b hb _ => henums b (h.isInstance b (List.mem_of_mem_take hb)))
  have hfresh := h.fresh
  rw [hsplit, List.map_append, ← List.cons_append] at hfresh
  refine ⟨s', hs', ⟨goesOn_iff.mpr ⟨?_, ?_⟩, ?_, ?_, ?_, ?_, hkept.trans h.kept, ?_⟩, ?_, b.2, ?_⟩
  · rw [hseen.thisF, lastName, hl, List.getLast?_concat]
    exact hn.named b (h.isInstance b hb)
  · rw [← Bool.not_eq_true, hseen.errored, hiids]
    rintro (herr | hchain)
    · rw [(goesOn_iff.mp h.goesOn).2] at herr
      cases herr
    · exact hchain (List.Pairwise.isChain (List.nodup_append.mp hfresh).1)
  · rw [hoid]
    exact hn.named b (h.isInstance b hb)
  · rw [hoid]
    have hsuccs : view.succs s.thisOid = l ++ b :: (todo.drop n ++ view.behind column) := by
      rw [h.succs, List.append_cons, ← hl, ← List.append_assoc, List.take_append_drop]
    exact view.succs_of_succs hsuccs
  · exact fun b hb => h.isInstance b (List.mem_of_mem_drop hb)
  · rw [hlast]
    rw [hl, List.map_append, List.map_singleton, ← List.cons_append, List.append_assoc] at hfresh
    exact (List.nodup_append.mp hfresh).2.1
  · rw [hout, h.kept, ← h.out, List.append_assoc]
    congr 1
    conv_rhs => rw [hsplit]
    rw [yielded, yielded, yielded, List.filter_append, List.map_append]
  · rw [hoid]
    exact (view.mem_instances.mp (h.isInstance b hb)).2.1
  · rw [hrows, hl, List.getLast?_concat, hoid]

/-- **A response beyond the column**, where something comes behind it: the walk is over. -/
theorem Walking.beyond (h : Walking mib view column name labels todo s)
    (hn : Decoded mib view column name)
    (henums : ∀ b ∈ view.instances column, mib.enums b.1 = mib.enums column)
    (hdecodes : ∀ b ∈ (view.respond n s.thisOid).rows, ∃ v, decodeVariable b.2 = .ok v)
    (hlt : todo.length < n) (hbehind : view.behind column ≠ []) :
    (∃ s', s.receive mib (some name) (view.respond n s.thisOid) = .ok s'
      ∧ s'.goesOn name = false
      ∧ s'.out = yielded mib labels (some name) (view.instances column))
    ∧ ∀ b, (view.respond n s.thisOid).rows.getLast? = some b → ¬ column <+: b.1 := by
  obtain ⟨rest, hrest⟩ : ∃ rest, rest = (view.behind column
      ++ List.replicate n (view.lastSucc s.thisOid, Variable.endOfMibView)).take
        (n - todo.length) := ⟨_, rfl⟩
  have hrows : (view.respond n s.thisOid).rows = todo ++ rest := by
    rw [rows_respond, h.succs, List.append_assoc, List.take_append, List.take_of_length_le hlt.le,
      hrest]
  -- the last identifier is one behind the column
  have hlast : view.lastSucc s.thisOid = ((view.behind column).getLast hbehind).1 := by
    rw [View.lastSucc, h.succs, List.getLast?_append, List.getLast?_eq_getLast_of_ne_nil hbehind]
    rfl
  have hfrom : ∀ b ∈ rest, ∃ b' ∈ view.behind column, b'.1 = b.1 := by
    intro b hb
    rw [hrest] at hb
    rcases List.mem_append.mp (List.mem_of_mem_take hb) with hb | hb
    · exact ⟨b, hb, rfl⟩
    · refine ⟨_, List.getLast_mem hbehind, ?_⟩
      rw [(List.mem_replicate.mp hb).2, hlast]
  have hforeign : ∀ b ∈ rest, (mib.decode b.1).1 ≠ some name := by
    intro b hb
    obtain ⟨b', hb', heq⟩ := hfrom b hb
    exact heq ▸ hn.foreign b' hb'
  have hne : rest ≠ [] := by
    intro hnil
    have hlen := congrArg List.length (hrest.symm.trans hnil)
    rw [List.length_take, List.length_append, List.length_nil] at hlen
    have hpos := List.length_pos_iff.mpr hbehind
    omega
  have hgetLast : (todo ++ rest).getLast? = some (rest.getLast hne) := by
    rw [List.getLast?_append, List.getLast?_eq_getLast_of_ne_nil hne]
    rfl
  obtain ⟨s', hs', hseen⟩ := exists_receive mib (some name) s hdecodes
  rw [hrows] at hseen ⊢
  refine ⟨⟨s', hs', ?_, ?_⟩, ?_⟩
  · rw [← Bool.not_eq_true, goesOn_iff, hseen.thisF, lastName, hgetLast]
    exact fun hgo => hforeign _ (List.getLast_mem hne) hgo.1
  · obtain ⟨-, hout⟩ := hseen.out (mib.enums column) (fun b hb hname => by
      rcases List.mem_append.mp hb with hb | hb
      · exact henums b (h.isInstance b hb)
      · exact absurd hname (hforeign b hb))
    rw [hout, h.kept, ← h.out, yielded, List.filter_append, filter_foreign hforeign,
      List.append_nil, yielded]
  · intro b hb
    rw [hgetLast] at hb
    obtain rfl := Option.some.inj hb
    obtain ⟨b', hb', heq⟩ := hfrom _ (List.getLast_mem hne)
    exact heq ▸ (view.mem_behind.mp hb').2.2

/-- **A response at the end of the view.** -/
theorem exists_ended (hn : Decoded mib view column name)
    (hdecodes : ∀ b ∈ (view.respond n s.thisOid).rows, ∃ v, decodeVariable b.2 = .ok v)
    (hnamed : (mib.decode s.thisOid).1 = some name) (hsuccs : view.succs s.thisOid = todo)
    (htodo : ∀ b ∈ todo, b ∈ view.instances column) (hlt : todo.length < n) :
    ∃ s', s.receive mib (some name) (view.respond n s.thisOid) = .ok s'
      ∧ Ended mib view name s' := by
  obtain ⟨s', hs', hseen⟩ := exists_receive mib (some name) s hdecodes
  obtain ⟨m, rfl⟩ : ∃ m, n = todo.length + (m + 1) := ⟨n - todo.length - 1, by omega⟩
  have hrows : (view.respond (todo.length + (m + 1)) s.thisOid).rows
      = (todo ++ List.replicate m (view.lastSucc s.thisOid, Variable.endOfMibView))
        ++ [(view.lastSucc s.thisOid, Variable.endOfMibView)] := by
    rw [rows_respond, hsuccs, List.take_append, List.take_of_length_le (by omega),
      List.take_replicate, List.append_assoc, ← List.replicate_succ']
    congr 2
    omega
  -- what is said to be the end is the last instance, or the column
  have hlast : (mib.decode (view.lastSucc s.thisOid)).1 = some name
      ∧ view.succs (view.lastSucc s.thisOid) = [] := by
    unfold View.lastSucc
    rw [hsuccs]
    rcases List.eq_nil_or_concat todo with rfl | ⟨l, b, rfl⟩
    · exact ⟨hnamed, hsuccs⟩
    · rw [List.concat_eq_append] at hsuccs htodo ⊢
      rw [List.getLast?_concat]
      exact ⟨hn.named b (htodo b (List.mem_append_right l List.mem_cons_self)),
        view.succs_of_succs hsuccs⟩
  rw [hrows] at hseen
  have hoid : s'.thisOid = view.lastSucc s.thisOid := hseen.thisOid_concat hlast.1
  refine ⟨s', hs', ?_, ?_, ?_⟩
  · rw [hoid]
    exact hlast.1
  · rw [hoid]
    exact hlast.2
  · obtain ⟨labels, hlabels⟩ := getLast?_out_of_receive hs' hrows hlast.1
    exact ⟨_, hlabels⟩

/-! ### What has been yielded -/

/-- What a walk has yielded goes back to identifiers that have been decoded. -/
def OutDecoded (mib : Mib) (s : Walk) : Prop :=
  ∀ y ∈ s.out, ∃ o, mib.decode o = (y.1, y.2.1)

theorem OutDecoded.row (h : OutDecoded mib s) (wanted : Option String) (o : Oid) (v : Got) :
    OutDecoded mib (s.row mib wanted o v) := by
  intro y hy
  unfold Walk.row at hy
  by_cases hf : (mib.decode o).1 = wanted
  · rw [if_pos hf] at hy
    rcases List.mem_append.mp hy with hy | hy
    · exact h y hy
    · rw [List.mem_singleton.mp hy]
      exact ⟨o, rfl⟩
  · rw [if_neg hf] at hy
    exact h y hy

theorem OutDecoded.receive {wanted : Option String} {pdu : Pdu} {s' : Walk} (h : OutDecoded mib s)
    (hs' : s.receive mib wanted pdu = .ok s') : OutDecoded mib s' := by
  refine @Except.foldlM_rest _ _ _ _ (fun _ => OutDecoded mib) ?_ _ _ _ h hs'
  intro b _ t t' ht ht'
  obtain ⟨v, -, ht'⟩ := Except.bind_eq_ok.mp ht'
  obtain rfl := Except.ok.inj ht'
  exact ht.row wanted b.1 v

theorem OutDecoded.loop {wanted : Option String} {answer : ℕ → Oid → Except Exn Pdu} {fuel : ℕ}
    {s' : Walk} (h : OutDecoded mib s)
    (hs' : loop mib name wanted answer fuel k s = some (.ok s')) : OutDecoded mib s' := by
  induction fuel generalizing s k with
  | zero =>
    unfold NetSNMP.loop at hs'
    split_ifs at hs'
    obtain rfl := Except.ok.inj (Option.some.inj hs')
    exact h
  | succ fuel ih =>
    unfold NetSNMP.loop at hs'
    split_ifs at hs'
    · cases hturn : (do let pdu ← answer k s.thisOid; s.receive mib wanted pdu) with
      | error e =>
        rw [hturn] at hs'
        cases hs'
      | ok s₁ =>
        rw [hturn] at hs'
        obtain ⟨pdu, -, hs₁⟩ := Except.bind_eq_ok.mp hturn
        exact ih (h.receive hs₁) hs'
    · obtain rfl := Except.ok.inj (Option.some.inj hs')
      exact h

/-! ### Runs -/

variable {agent : Agent}

/-- A turn of the loop that receives the response. -/
theorem loop_of_receive {fuel : ℕ} {s' : Walk} (hgo : s.goesOn name = true)
    (hs' : s.receive mib (some name) (agent.view.respond (agent.fits k s.thisOid) s.thisOid)
      = .ok s') :
    loop mib name (some name) agent.answer (fuel + 1) k s
      = loop mib name (some name) agent.answer fuel (k + 1) s' := by
  rw [loop, if_pos hgo, Agent.answer, Agent.respond, Except.ok_bind, hs']

theorem loop_of_stop {fuel : ℕ} (hstop : s.goesOn name = false) :
    loop mib name (some name) agent.answer fuel k s = some (.ok s) := by
  cases fuel <;> simp [loop, hstop]

/-- A loop that ends has received the response to its request. -/
theorem receive_of_loop {fuel : ℕ} {s' : Walk} (hgo : s.goesOn name = true)
    (hs' : loop mib name (some name) agent.answer (fuel + 1) k s = some (.ok s')) :
    ∃ s₁, s.receive mib (some name) (agent.view.respond (agent.fits k s.thisOid) s.thisOid) = .ok s₁
      ∧ loop mib name (some name) agent.answer fuel (k + 1) s₁ = some (.ok s') := by
  cases hs₁ : s.receive mib (some name)
      (agent.view.respond (agent.fits k s.thisOid) s.thisOid) with
  | error e =>
    rw [loop, if_pos hgo, Agent.answer, Agent.respond, Except.ok_bind, hs₁] at hs'
    cases hs'
  | ok s₁ => exact ⟨s₁, rfl, (loop_of_receive hgo hs₁).symm.trans hs'⟩

/-- Where something comes behind the column and the responses can be decoded, the walk ends with all
its instances. -/
theorem exists_loop (hn : Decoded mib agent.view column name)
    (henums : ∀ b ∈ agent.view.instances column, mib.enums b.1 = mib.enums column)
    (hbehind : agent.view.behind column ≠ [])
    (hdecodes : ∀ c, Relation.ReflTransGen (agent.Next column) (k, s.thisOid) c →
      agent.Decodable c) (h : Walking mib agent.view column name labels todo s) :
    ∃ fuel s', loop mib name (some name) agent.answer fuel k s = some (.ok s')
      ∧ s'.out = yielded mib labels (some name) (agent.view.instances column) := by
  have hnow := hdecodes _ Relation.ReflTransGen.refl
  have hpos := agent.fits_pos k s.thisOid
  obtain ⟨m, hm⟩ : ∃ m, todo.length ≤ m := ⟨_, le_rfl⟩
  induction m generalizing todo s k with
  | zero =>
    obtain ⟨⟨s', hs', hstop, hout⟩, -⟩ :=
      h.beyond hn henums hnow (lt_of_le_of_lt hm hpos) hbehind
    exact ⟨1, s', (loop_of_receive h.goesOn hs').trans (loop_of_stop hstop), hout⟩
  | succ m ih =>
    by_cases hle : agent.fits k s.thisOid ≤ todo.length
    · obtain ⟨s₁, hs₁, hwalking, hlast⟩ := h.inside hn henums hnow hpos hle
      have hnext : agent.Next column (k, s.thisOid) (k + 1, s₁.thisOid) := ⟨rfl, hlast⟩
      have hlen : (todo.drop (agent.fits k s.thisOid)).length ≤ m := by
        rw [List.length_drop]
        omega
      obtain ⟨fuel, s', hs', hout⟩ := ih (fun c hc => hdecodes c (hc.head hnext)) hwalking
        (hdecodes _ (Relation.ReflTransGen.single hnext)) (agent.fits_pos _ _) hlen
      exact ⟨fuel + 1, s', (loop_of_receive h.goesOn hs₁).trans hs', hout⟩
    · obtain ⟨⟨s', hs', hstop, hout⟩, -⟩ :=
        h.beyond hn henums hnow (Nat.lt_of_not_le hle) hbehind
      exact ⟨1, s', (loop_of_receive h.goesOn hs').trans (loop_of_stop hstop), hout⟩

/-- A walk that ends, where something comes behind the column, has all its instances, and could
decode all responses. -/
theorem of_loop (hn : Decoded mib agent.view column name)
    (henums : ∀ b ∈ agent.view.instances column, mib.enums b.1 = mib.enums column)
    (hbehind : agent.view.behind column ≠ []) {fuel : ℕ} {s' : Walk}
    (h : Walking mib agent.view column name labels todo s)
    (hs' : loop mib name (some name) agent.answer fuel k s = some (.ok s')) :
    s'.out = yielded mib labels (some name) (agent.view.instances column) ∧
      ∀ c, Relation.ReflTransGen (agent.Next column) (k, s.thisOid) c → agent.Decodable c := by
  induction fuel generalizing todo s k with
  | zero =>
    rw [loop, if_pos h.goesOn] at hs'
    cases hs'
  | succ fuel ih =>
    obtain ⟨s₁, hs₁, hloop⟩ := receive_of_loop h.goesOn hs'
    have hnow : agent.Decodable (k, s.thisOid) := exists_of_receive hs₁
    by_cases hle : agent.fits k s.thisOid ≤ todo.length
    · obtain ⟨s₂, hs₂, hwalking, -, var, hlast⟩ :=
        h.inside hn henums hnow (agent.fits_pos _ _) hle
      obtain rfl := Except.ok.inj (hs₁.symm.trans hs₂)
      obtain ⟨hout, hrest⟩ := ih hwalking hloop
      refine ⟨hout, fun c hc => ?_⟩
      rcases Relation.ReflTransGen.cases_head hc with rfl | ⟨⟨k', r⟩, ⟨hk, -, var', hlast'⟩, hc⟩
      · exact hnow
      · obtain rfl : k' = k + 1 := hk
        obtain rfl : s₁.thisOid = r :=
          congrArg Prod.fst (Option.some.inj (hlast.symm.trans hlast'))
        exact hrest c hc
    · obtain ⟨⟨s₂, hs₂, hstop, hout⟩, hlast⟩ :=
        h.beyond hn henums hnow (Nat.lt_of_not_le hle) hbehind
      obtain rfl := Except.ok.inj (hs₁.symm.trans hs₂)
      rw [loop_of_stop hstop] at hloop
      obtain rfl := Except.ok.inj (Option.some.inj hloop)
      refine ⟨hout, fun c hc => ?_⟩
      rcases Relation.ReflTransGen.cases_head hc with rfl | ⟨c', ⟨-, hprefix, var, hc'⟩, -⟩
      · exact hnow
      · exact absurd hprefix (hlast _ hc')

/-- Where nothing comes behind the column, a walk that ends has been told so by the agent. -/
theorem ended_of_loop (hn : Decoded mib agent.view column name)
    (henums : ∀ b ∈ agent.view.instances column, mib.enums b.1 = mib.enums column)
    (hbehind : agent.view.behind column = []) {fuel : ℕ} {s' : Walk}
    (h : Walking mib agent.view column name labels todo s ∨ Ended mib agent.view name s)
    (hs' : loop mib name (some name) agent.answer fuel k s = some (.ok s')) :
    Ended mib agent.view name s' := by
  by_cases hgo : s.goesOn name = true
  · induction fuel generalizing todo s k with
    | zero =>
      rw [loop, if_pos hgo] at hs'
      cases hs'
    | succ fuel ih =>
      obtain ⟨s₁, hs₁, hloop⟩ := receive_of_loop hgo hs'
      have hnow : agent.Decodable (k, s.thisOid) := exists_of_receive hs₁
      have hpos := agent.fits_pos k s.thisOid
      -- what the response makes of the walk
      have hnext : ∃ todo', Walking mib agent.view column name labels todo' s₁
          ∨ Ended mib agent.view name s₁ := by
        rcases h with hw | he
        · by_cases hle : agent.fits k s.thisOid ≤ todo.length
          · obtain ⟨s₂, hs₂, hwalking, -⟩ := hw.inside hn henums hnow hpos hle
            obtain rfl := Except.ok.inj (hs₁.symm.trans hs₂)
            exact ⟨_, Or.inl hwalking⟩
          · obtain ⟨s₂, hs₂, hended⟩ := exists_ended hn hnow hw.named
              (hw.succs.trans (by rw [hbehind, List.append_nil])) hw.isInstance
              (Nat.lt_of_not_le hle)
            obtain rfl := Except.ok.inj (hs₁.symm.trans hs₂)
            exact ⟨[], Or.inr hended⟩
        · obtain ⟨s₂, hs₂, hended⟩ := exists_ended hn hnow he.named he.succs
            (fun b hb => absurd hb List.not_mem_nil) hpos
          obtain rfl := Except.ok.inj (hs₁.symm.trans hs₂)
          exact ⟨[], Or.inr hended⟩
      obtain ⟨todo', hnext⟩ := hnext
      by_cases hgo₁ : s₁.goesOn name = true
      · exact ih hnext hloop hgo₁
      · rw [loop_of_stop (Bool.eq_false_iff.mpr hgo₁)] at hloop
        obtain rfl := Except.ok.inj (Option.some.inj hloop)
        exact hnext.resolve_left (fun hw => hgo₁ hw.goesOn)
  · rw [loop_of_stop (Bool.eq_false_iff.mpr hgo)] at hs'
    obtain rfl := Except.ok.inj (Option.some.inj hs')
    exact h.resolve_left (fun hw => hgo hw.goesOn)

/-! ### What is collected of a walk -/

/-- What is yielded for the instances is looked up under their indices. -/
theorem valueAt_instances (hn : Decoded mib view column name) {f iid : Option String} {v : Got} :
    valueAt (collect (yielded mib labels (some name) (view.instances column))) f iid = some v ↔
      f = some name ∧ ∃ b ∈ view.binds, IsInstance column b.1 ∧ (mib.decode b.1).2 = iid
        ∧ v = present labels b.2.got := by
  have hyielded : yielded mib labels (some name) (view.instances column)
      = (view.instances column).map (fun b => (some name, (mib.decode b.1).2,
        present labels b.2.got)) := by
    rw [yielded, filter_named hn.named]
  have hnodup : ((yielded mib labels (some name) (view.instances column)).map
      (fun y => (y.1, y.2.1))).Nodup := by
    have hiids := (List.nodup_cons.mp (walking_start hn ∅).fresh).2
    rw [hyielded, List.map_map]
    have hpair := hiids.map (f := fun iid => (some name, iid)) (fun a b h => (Prod.mk.inj h).2)
    rwa [List.map_map] at hpair
  rw [valueAt_collect_iff hnodup, hyielded, List.mem_map]
  constructor
  · rintro ⟨b, hb, heq⟩
    obtain ⟨rfl, rfl, rfl⟩ : some name = f ∧ (mib.decode b.1).2 = iid ∧ _ = v := by
      simpa using heq
    obtain ⟨hbinds, hi⟩ := view.mem_instances.mp hb
    exact ⟨rfl, b, hbinds, hi, rfl, rfl⟩
  · rintro ⟨rfl, b, hbinds, hi, rfl, rfl⟩
    exact ⟨b, view.mem_instances.mpr ⟨hbinds, hi⟩, rfl⟩

theorem not_exact_of_ended (h : Ended mib view name s) :
    ¬ Exact mib view column name (collect s.out) := by
  intro hexact
  obtain ⟨iid, hlast⟩ := h.out
  obtain ⟨-, b, hb, -, -, heq⟩ := (hexact.entry _ _ _).mp (valueAt_collect_last hlast)
  exact present_ne (got_ne (view.values b hb)) heq.symm

/-- An instance that is looked up at an index of its own has been decoded. -/
theorem indexed_of_exact (hexact : Exact mib view column name (collect s.out))
    (h : OutDecoded mib s) {b : Oid × Variable} (hb : b ∈ view.binds)
    (hi : IsInstance column b.1) : (mib.decode b.1).2 ≠ none := by
  have hvalue := (hexact.entry (some name) (mib.decode b.1).2 _).mpr ⟨rfl, b, hb, hi, rfl, rfl⟩
  obtain ⟨y, hy, hname, hiid⟩ := exists_mem_of_valueAt hvalue
  obtain ⟨o, ho⟩ := h y hy
  have hdecoded : (mib.decode o).2 = (mib.decode b.1).2 := (congrArg Prod.snd ho).trans hiid
  rw [← hdecoded, decode_snd_ne_none]
  exact ⟨name, (congrArg Prod.fst ho).trans hname⟩

end walk

/-! ### The aliases of a switch -/

/-- An agent whose responses are as long as they may be. -/
def View.agent (view : View) : Agent where
  view := view
  fits := fun _ _ => maxRepeaters
  fits_pos := fun _ _ => by decide
  fits_le := fun _ _ => le_rfl

theorem isLabel_ifAlias : IsLabel "ifAlias" := ⟨by decide, by decide, by decide⟩

/-- The aliases have one number as their index. -/
theorem names_interfaces {view : View}
    (h : ∀ b ∈ view.binds, IsInstance [1, 18] b.1 → ∃ i, b.1 = [1, 18, i]) :
    Names interfaces view [1, 18] "ifAlias" where
  label := isLabel_ifAlias
  node := rfl
  text := ⟨"IF-MIB", by decide, by decide⟩
  instText := fun b hb hi => by
    obtain ⟨i, hi⟩ := h b hb hi
    refine ⟨"IF-MIB", toString i, by decide, ?_⟩
    rw [hi]
    exact congrArg (· ++ toString i) (by decide : "IF-MIB::ifAlias." = _)
  enums := fun _ _ _ => rfl
  foreign := fun b _ _ hnot => by
    have htext : interfaceText b.1 = "IF-MIB" ++ "::" ++ "ifDescr" := by
      unfold interfaceText
      split
      · rename_i heq
        exact absurd (heq ▸ List.prefix_rfl) hnot
      · rename_i i heq
        exact absurd (heq ▸ List.prefix_append [1, 18] [i]) hnot
      · decide
    rw [@decode_of_column interfaces b.1 "IF-MIB" "ifDescr" (by decide)
      ⟨by decide, by decide, by decide⟩ htext]
    decide

/-- The column of the counters comes behind that of the aliases. -/
def aliasesAndCounters : View where
  binds := [([1, 18, 1], .octetStr "to core"), ([1, 18, 2], .octetStr ""), ([1, 19, 1], .integer 7)]
  sorted := by decide
  values := by decide

/-- The aliases are the last column of the view. -/
def aliasesOnly : View where
  binds := [([1, 18, 1], .octetStr "to core"), ([1, 18, 2], .octetStr "")]
  sorted := by decide
  values := by decide

end NetSNMP
