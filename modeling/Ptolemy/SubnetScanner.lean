/-
# The statistics of a subnet

`SubnetScanner.do` goes over the records of a subnet's hosts and keeps one slot for each metric: a
sum for a mean, a list for a median, and the least or greatest value so far.  A lost reply is a
`None` among the values, which Python 2 orders below every number.

All loops are sequences of edits of one slot each.  What a slot holds at the end depends on the
edits of this slot alone (`run_lookup`, `run_total`), so that the metrics can be looked at one by
one (`report_lookup`, `report_total`).
-/
import Ptolemy.Value

namespace SubnetScanner

/-! ## The functions -/

/-- A value of a metric: a number, or `None`, which is below all of them. -/
abbrev Value : Type := WithBot ℚ

/-- What `self.summary_data` holds for a key. -/
inductive Slot : Type where
  | null : Slot
  | number (q : ℚ) : Slot
  | values (l : List Value) : Slot
  deriving DecidableEq

namespace Slot

def ofValue : Value → Slot
  | ⊥ => .null
  | (q : ℚ) => .number q

/-- `self.summary_data[t] + n`. -/
def add : Slot → Value → Except Exn Slot
  | .number q, (n : ℚ) => .ok (.number (q + n))
  | _, _ => .error (.typeError "unsupported operand type(s) for +")

/-- `self.summary_data[t].append( n )`. -/
def append : Slot → Value → Except Exn Slot
  | .values l, n => .ok (.values (l ++ [n]))
  | _, _ => .error (.attributeError "no attribute 'append'")

/-- The value `n` where the slot is `None` or `n` is less: a list is above all values. -/
def least : Slot → Value → Except Exn Slot
  | .null, n => .ok (ofValue n)
  | .number q, n => .ok (if n < q then ofValue n else .number q)
  | .values _, n => .ok (ofValue n)

/-- The value `n` where the slot is `None` or `n` is greater. -/
def greatest : Slot → Value → Except Exn Slot
  | .null, n => .ok (ofValue n)
  | .number q, n => .ok (if (q : Value) < n then ofValue n else .number q)
  | .values l, _ => .ok (.values l)

/-- `float(self.summary_data[t] / cn)`. -/
def mean (cn : ℕ) : Slot → Except Exn Slot
  | .number q => .ok (.number (q / cn))
  | _ => .error (.typeError "unsupported operand type(s) for /")

/-- The middle of the sorted values, if the two values there are numbers. -/
def middle (l : List Value) : Slot :=
  let srtd := l.insertionSort (· ≤ ·)
  match srtd[(l.length - 1) / 2]?, srtd[l.length / 2]? with
  | some (a : ℚ), some (b : ℚ) => .number (1 / 2 * (a + b))
  | _, _ => .null

def median : Slot → Except Exn Slot
  | .values l => .ok (if 1 < l.length then middle l else .null)
  | _ => .error (.typeError "object has no len()")

/-- Whether a slot is deleted at the end. -/
def isEmpty : Slot → Bool
  | .null => true
  | .values [] => true
  | _ => false

end Slot

abbrev Summary : Type := Dict String Slot

/-- What the loop over the hosts changes. -/
structure Scan where
  cn : ℕ
  summary : Summary

/-- An assignment to `self.summary_data[t]` that reads what is there, `cn` being counted up. -/
def Scan.modify (step : ℕ) (t : String) (change : Slot → Except Exn Slot) (c : Scan) :
    Except Exn Scan :=
  match c.summary.lookup t with
  | none => .error (.keyError t)
  | some v => do
      let v' ← change v
      pure ⟨c.cn + step, c.summary.insert t v'⟩

/-- The metrics that are asked for.  A metric has one slot, in however many ways it is asked for;
the key `count` is taken. -/
structure Metrics where
  mean : List String
  median : List String
  mins : List String
  maxs : List String
  count_notMem : "count" ∉ mean ++ median ++ mins ++ maxs

/-- The default arguments. -/
def Metrics.default : Metrics := ⟨["loss"], ["ipdv"], ["rtt"], [], by decide⟩

variable {R : Type} (arrayify : R → String → List Value)

/-- One of the loops over the metrics of a kind. -/
def visit (step : ℕ) (change : Slot → Value → Except Exn Slot) (ts : List String) (i : R)
    (c : Scan) : Except Exn Scan :=
  ts.foldlM (fun c t =>
    (arrayify i t).foldlM (fun c n => c.modify step t (fun v => change v n)) c) c

/-- What is done with the record of one host. -/
def visitHost (m : Metrics) (c : Scan) (i : R) : Except Exn Scan := do
  let c ← visit arrayify 1 Slot.add m.mean i c
  let c ← visit arrayify 0 Slot.append m.median i c
  let c ← visit arrayify 0 Slot.least m.mins i c
  visit arrayify 0 Slot.greatest m.maxs i c

/-- The slots before the loop. -/
def start (m : Metrics) : Summary :=
  let s := m.mean.foldl (fun s t => s.insert t (.number 0)) (∅ : Summary)
  let s := m.median.foldl (fun s t => s.insert t (.values [])) s
  let s := m.mins.foldl (fun s t => s.insert t .null) s
  m.maxs.foldl (fun s t => s.insert t .null) s

/-- `self.data` without the network and the broadcast address. -/
def hosts (data : List R) : List R := if 2 < data.length then data.dropLast.tail else data

/-- The means and medians, from the sums and lists. -/
def summarise (m : Metrics) (c : Scan) : Except Exn Scan := do
  let cn := c.cn
  let c ← m.mean.foldlM (fun c t => if 0 < cn then c.modify 0 t (Slot.mean cn) else pure c) c
  m.median.foldlM (fun c t => c.modify 0 t Slot.median) c

/-- `del self.summary_data[t]` for an empty slot. -/
def prune (s : Summary) (t : String) : Except Exn Summary :=
  match s.lookup t with
  | none => .error (.keyError t)
  | some v => .ok (if v.isEmpty then s.erase t else s)

/-- `SubnetScanner.do`, on what the agent's `do` gives. -/
def report (m : Metrics) (records : List R) : Except Exn Summary := do
  let data := hosts records
  let c : Scan := ⟨0, (start m).insert "count" (.number data.length)⟩
  let c ← if 1 < data.length then data.foldlM (visitHost arrayify m) c else pure c
  let s ← if c.summary.lookup "count" = some (.number 0)
    then pure (c.summary.insert "loss" (.number 1))
    else do
      let c ← summarise m c
      pure c.summary
  (m.median ++ m.mean ++ m.mins ++ m.maxs).foldlM prune s

/-! ## Edits -/

/-- An edit of one slot. -/
structure Edit where
  step : ℕ
  key : String
  change : Slot → Except Exn Slot

def Edit.run (c : Scan) (e : Edit) : Except Exn Scan := c.modify e.step e.key e.change

/-- The edits of a key, as changes of its slot. -/
def changes (k : String) (es : List Edit) : List (Slot → Except Exn Slot) :=
  (es.filter (·.key = k)).map (·.change)

/-- The changes of a slot, one after the other. -/
def apply (fs : List (Slot → Except Exn Slot)) (v : Slot) : Except Exn Slot :=
  fs.foldlM (fun v f => f v) v

theorem changes_cons (k : String) (e : Edit) (es : List Edit) :
    changes k (e :: es) = if e.key = k then e.change :: changes k es else changes k es := by
  unfold changes
  by_cases hkey : e.key = k
  · simp [hkey]
  · simp [hkey]

theorem changes_append (k : String) (es es' : List Edit) :
    changes k (es ++ es') = changes k es ++ changes k es' := by
  simp [changes]

/-- One edit: the slot is there, and its change does not raise. -/
theorem Edit.run_eq_ok {c c' : Scan} {e : Edit} (h : e.run c = .ok c') :
    ∃ v v', c.summary.lookup e.key = some v ∧ e.change v = .ok v'
      ∧ c' = ⟨c.cn + e.step, c.summary.insert e.key v'⟩ := by
  unfold run Scan.modify at h
  split at h
  · cases h
  · rename_i v hv
    obtain ⟨v', hv', hc'⟩ := Except.bind_eq_ok.mp h
    exact ⟨v, v', hv, hv', (Except.ok.inj hc').symm⟩

theorem Edit.run_of_change {c : Scan} {e : Edit} {v v' : Slot}
    (hv : c.summary.lookup e.key = some v) (hv' : e.change v = .ok v') :
    e.run c = .ok ⟨c.cn + e.step, c.summary.insert e.key v'⟩ := by
  rw [run, Scan.modify, hv]
  simp only [hv', Except.ok_bind]
  rfl

/-- **A slot at the end of the edits** is what the edits of this slot make of it. -/
theorem run_lookup {es : List Edit} {c c' : Scan} (h : es.foldlM Edit.run c = .ok c')
    {k : String} {v : Slot} (hv : c.summary.lookup k = some v) :
    ∃ v', apply (changes k es) v = .ok v' ∧ c'.summary.lookup k = some v' := by
  induction es generalizing c v with
  | nil =>
    cases h
    exact ⟨v, rfl, hv⟩
  | cons e es ih =>
    obtain ⟨c₁, hc₁, h⟩ := Except.bind_eq_ok.mp ((List.foldlM_cons ..).symm.trans h)
    obtain ⟨w, w', hw, hw', rfl⟩ := Edit.run_eq_ok hc₁
    rw [changes_cons]
    by_cases hkey : e.key = k
    · subst hkey
      obtain rfl := Option.some.inj (hv.symm.trans hw)
      obtain ⟨v', happ, hlook⟩ := ih h (AList.lookup_insert _)
      refine ⟨v', ?_, hlook⟩
      rw [if_pos rfl, apply, List.foldlM_cons, hw']
      exact happ
    · rw [if_neg hkey]
      exact ih h ((AList.lookup_insert_ne (Ne.symm hkey)).trans hv)

/-- No edit adds a slot. -/
theorem run_lookup_none {es : List Edit} {c c' : Scan} (h : es.foldlM Edit.run c = .ok c')
    {k : String} (hk : c.summary.lookup k = none) : c'.summary.lookup k = none := by
  induction es generalizing c with
  | nil =>
    cases h
    exact hk
  | cons e es ih =>
    obtain ⟨c₁, hc₁, h⟩ := Except.bind_eq_ok.mp ((List.foldlM_cons ..).symm.trans h)
    obtain ⟨w, w', hw, -, rfl⟩ := Edit.run_eq_ok hc₁
    have hkey : k ≠ e.key := by
      rintro rfl
      rw [hk] at hw
      cases hw
    exact ih h ((AList.lookup_insert_ne hkey).trans hk)

theorem run_cn {es : List Edit} {c c' : Scan} (h : es.foldlM Edit.run c = .ok c') :
    c'.cn = c.cn + (es.map Edit.step).sum := by
  induction es generalizing c with
  | nil =>
    cases h
    rfl
  | cons e es ih =>
    obtain ⟨c₁, hc₁, h⟩ := Except.bind_eq_ok.mp ((List.foldlM_cons ..).symm.trans h)
    obtain ⟨w, w', -, -, rfl⟩ := Edit.run_eq_ok hc₁
    rw [List.map_cons, List.sum_cons, ← Nat.add_assoc]
    exact ih h

/-- **Edits do not raise** where no slot's own changes do. -/
theorem run_total {es : List Edit} {c : Scan}
    (h : ∀ e ∈ es, ∃ v v', c.summary.lookup e.key = some v
      ∧ apply (changes e.key es) v = .ok v') : ∃ c', es.foldlM Edit.run c = .ok c' := by
  induction es generalizing c with
  | nil => exact ⟨c, rfl⟩
  | cons e es ih =>
    obtain ⟨v, v', hv, happ⟩ := h e List.mem_cons_self
    rw [changes_cons, if_pos rfl, apply, List.foldlM_cons] at happ
    obtain ⟨w, hw, happ⟩ := Except.bind_eq_ok.mp happ
    rw [List.foldlM_cons, Edit.run_of_change hv hw, Except.ok_bind]
    refine ih (fun e' he' => ?_)
    by_cases hkey : e.key = e'.key
    · exact ⟨w, v', by rw [← hkey]; exact AList.lookup_insert _, by rw [← hkey]; exact happ⟩
    · obtain ⟨u, u', hu, hu'⟩ := h e' (List.mem_cons_of_mem _ he')
      rw [changes_cons, if_neg hkey] at hu'
      exact ⟨u, u', (AList.lookup_insert_ne (Ne.symm hkey)).trans hu, hu'⟩

/-! ## The metrics -/

/-- How the slots of a kind begin, what a value does to them, and what is done at the end. -/
structure Kind where
  step : ℕ
  start : Slot
  change : Slot → Value → Except Exn Slot
  finish : ℕ → List (Slot → Except Exn Slot)

namespace Kind

def mean : Kind := ⟨1, .number 0, Slot.add, fun cn => if 0 < cn then [Slot.mean cn] else []⟩

def median : Kind := ⟨0, .values [], Slot.append, fun _ => [Slot.median]⟩

def least : Kind := ⟨0, .null, Slot.least, fun _ => []⟩

def greatest : Kind := ⟨0, .null, Slot.greatest, fun _ => []⟩

/-- A value of a metric of this kind, as an edit. -/
def edit (t : String) (κ : Kind) (n : Value) : Edit := ⟨κ.step, t, fun v => κ.change v n⟩

end Kind

namespace Metrics

def kinds (m : Metrics) : List (String × Kind) :=
  m.mean.map (fun t => (t, Kind.mean)) ++ m.median.map (fun t => (t, Kind.median))
    ++ m.mins.map (fun t => (t, Kind.least)) ++ m.maxs.map (fun t => (t, Kind.greatest))

variable (m : Metrics)

/-- The keys, as often as they are asked for. -/
def keys : List String := m.mean ++ m.median ++ m.mins ++ m.maxs

theorem map_fst_kinds : m.kinds.map Prod.fst = m.keys := by
  simp [kinds, keys, Function.comp_def]

/-- The ways in which a metric is asked for. -/
def waysOf (k : String) : List Kind := (m.kinds.filter (fun q => q.1 = k)).map Prod.snd

theorem length_waysOf (k : String) : (m.waysOf k).length = m.keys.count k := by
  rw [waysOf, List.length_map, ← map_fst_kinds, List.count, List.countP_map,
    List.countP_eq_length_filter]
  rfl

end Metrics

def hostEdits (m : Metrics) (i : R) : List Edit :=
  m.kinds.flatMap (fun q => (arrayify i q.1).map (q.2.edit q.1))

def finishEdits (m : Metrics) (cn : ℕ) : List Edit :=
  m.kinds.flatMap (fun q => (q.2.finish cn).map (fun f => ⟨0, q.1, f⟩))

theorem foldlM_flatMap {α β σ ε : Type} (l : List α) (f : α → List β) (g : σ → β → Except ε σ)
    (c : σ) : (l.flatMap f).foldlM g c = l.foldlM (fun c a => (f a).foldlM g c) c := by
  induction l generalizing c with
  | nil => rfl
  | cons a l ih =>
    rw [List.flatMap_cons, List.foldlM_append, List.foldlM_cons]
    exact congrArg _ (funext ih)

theorem visit_eq (κ : Kind) (ts : List String) (i : R) (c : Scan) :
    visit arrayify κ.step κ.change ts i c
      = (ts.flatMap (fun t => (arrayify i t).map (κ.edit t))).foldlM Edit.run c := by
  rw [foldlM_flatMap]
  simp only [List.foldlM_map]
  rfl

theorem visitHost_eq (m : Metrics) (c : Scan) (i : R) :
    visitHost arrayify m c i = (hostEdits arrayify m i).foldlM Edit.run c := by
  simp only [hostEdits, Metrics.kinds, List.flatMap_append, List.flatMap_map, List.foldlM_append,
    ← visit_eq, bind_assoc]
  rfl

theorem summarise_eq (m : Metrics) (c : Scan) :
    summarise m c = (finishEdits m c.cn).foldlM Edit.run c := by
  have hmean : ∀ (c' : Scan) (t : String), ((Kind.mean.finish c.cn).map
      (fun f => (⟨0, t, f⟩ : Edit))).foldlM Edit.run c'
        = if 0 < c.cn then c'.modify 0 t (Slot.mean c.cn) else pure c' := by
    intro c' t
    unfold Kind.mean
    dsimp only
    split_ifs
    · exact bind_pure _
    · rfl
  have hmedian : ∀ (c' : Scan) (t : String), ((Kind.median.finish c.cn).map
      (fun f => (⟨0, t, f⟩ : Edit))).foldlM Edit.run c' = c'.modify 0 t Slot.median :=
    fun c' t => bind_pure _
  simp only [finishEdits, Metrics.kinds, List.flatMap_append, List.flatMap_map,
    List.foldlM_append, foldlM_flatMap, hmean, hmedian]
  simp [Kind.least, Kind.greatest, summarise]

/-! ## One metric among the others -/

theorem changes_eq_map {k : String} {es : List Edit} (h : ∀ e ∈ es, e.key = k) :
    changes k es = es.map (·.change) := by
  rw [changes, List.filter_eq_self.mpr (fun e he => decide_eq_true (h e he))]

theorem changes_eq_nil {k : String} {es : List Edit} (h : ∀ e ∈ es, e.key ≠ k) :
    changes k es = [] := by
  rw [changes, List.filter_eq_nil_iff.mpr (fun e he => by simp [h e he]), List.map_nil]

/-- Of the edits of all metrics, those of one. -/
theorem changes_flatMap (k : String) (ks : List (String × Kind)) {E : String → Kind → List Edit}
    (hE : ∀ t κ, ∀ e ∈ E t κ, e.key = t) : changes k (ks.flatMap (fun q => E q.1 q.2))
      = ((ks.filter (fun q => q.1 = k)).map Prod.snd).flatMap
        (fun κ => (E k κ).map (·.change)) := by
  induction ks with
  | nil => rfl
  | cons q ks ih =>
    rw [List.flatMap_cons, changes_append, ih]
    by_cases hk : q.1 = k
    · rw [hk, changes_eq_map (hE k q.2), List.filter_cons, if_pos (decide_eq_true hk),
        List.map_cons, List.flatMap_cons]
    · rw [changes_eq_nil (fun e he heq => hk ((hE q.1 q.2 e he).symm.trans heq)),
        List.filter_cons, if_neg (by simp [hk]), List.nil_append]

/-- The values of a metric in each record. -/
def lists (data : List R) (t : String) : List (List Value) := data.map (fun i => arrayify i t)

/-- The values of a metric, in the order of the records. -/
def values (data : List R) (t : String) : List Value := data.flatMap (fun i => arrayify i t)

theorem changes_host (m : Metrics) (i : R) (k : String) : changes k (hostEdits arrayify m i)
    = (m.waysOf k).flatMap (fun κ => (arrayify i k).map (fun n v => κ.change v n)) := by
  rw [hostEdits, changes_flatMap k m.kinds (E := fun t κ => (arrayify i t).map (κ.edit t))]
  · simp only [List.map_map]
    rfl
  · intro t κ e he
    obtain ⟨n, -, rfl⟩ := List.mem_map.mp he
    rfl

theorem changes_finish (m : Metrics) (cn : ℕ) (k : String) :
    changes k (finishEdits m cn) = (m.waysOf k).flatMap (fun κ => κ.finish cn) := by
  rw [finishEdits, changes_flatMap k m.kinds
    (E := fun t κ => (κ.finish cn).map (fun f => (⟨0, t, f⟩ : Edit)))]
  · simp only [List.map_map]
    exact congrArg (fun f => (m.waysOf k).flatMap f) (funext fun κ => List.map_id _)
  · intro t κ e he
    obtain ⟨f, -, rfl⟩ := List.mem_map.mp he
    rfl

/-- All edits of a report. -/
def edits (m : Metrics) (data : List R) (cn : ℕ) : List Edit :=
  data.flatMap (hostEdits arrayify m) ++ finishEdits m cn

/-- What the values of the records do to a slot. -/
def visitSlot (κs : List Kind) (hs : List (List Value)) (v : Slot) : Except Exn Slot :=
  hs.foldlM (fun v vs => κs.foldlM (fun v κ => vs.foldlM κ.change v) v) v

/-- What a slot is before the records: the last way in which the metric is asked for decides. -/
def startOf (κs : List Kind) : Slot := (κs.getLast?.map Kind.start).getD .null

/-- What becomes of a slot. -/
def result (κs : List Kind) (cn : ℕ) (hs : List (List Value)) : Except Exn Slot := do
  let v ← visitSlot κs hs (startOf κs)
  apply (κs.flatMap (fun κ => κ.finish cn)) v

theorem apply_changes (m : Metrics) (data : List R) (cn : ℕ) (k : String) :
    apply (changes k (edits arrayify m data cn)) (startOf (m.waysOf k))
      = result (m.waysOf k) cn (lists arrayify data k) := by
  have hhosts : ∀ v, apply (changes k (data.flatMap (hostEdits arrayify m))) v
      = visitSlot (m.waysOf k) (lists arrayify data k) v := by
    intro v
    induction data generalizing v with
    | nil => rfl
    | cons i data ih =>
      have hstep : ∀ v, apply (changes k (hostEdits arrayify m i)) v
          = (m.waysOf k).foldlM (fun v κ => (arrayify i k).foldlM κ.change v) v := by
        intro v
        rw [changes_host, apply, foldlM_flatMap]
        simp only [List.foldlM_map]
      rw [List.flatMap_cons, changes_append, apply, List.foldlM_append, lists, List.map_cons,
        visitSlot, List.foldlM_cons, ← hstep]
      exact congrArg _ (funext ih)
  rw [edits, changes_append, apply, List.foldlM_append, changes_finish, result, ← hhosts]
  rfl

/-- The metric of an edit is asked for. -/
theorem mem_keys_of_mem_edits {m : Metrics} {data : List R} {cn : ℕ} {e : Edit}
    (he : e ∈ edits arrayify m data cn) : e.key ∈ m.keys := by
  rw [← m.map_fst_kinds]
  rcases List.mem_append.mp he with he | he
  · obtain ⟨i, -, he⟩ := List.mem_flatMap.mp he
    obtain ⟨q, hq, he⟩ := List.mem_flatMap.mp he
    obtain ⟨n, -, rfl⟩ := List.mem_map.mp he
    exact List.mem_map_of_mem hq
  · obtain ⟨q, hq, he⟩ := List.mem_flatMap.mp he
    obtain ⟨f, -, rfl⟩ := List.mem_map.mp he
    exact List.mem_map_of_mem hq

/-- The number of values of the metrics for which means are asked. -/
def total (m : Metrics) (data : List R) : ℕ :=
  (m.mean.map (fun t => (values arrayify data t).length)).sum

theorem sum_steps_host (m : Metrics) (i : R) : ((hostEdits arrayify m i).map Edit.step).sum
    = (m.mean.map (fun t => (arrayify i t).length)).sum := by
  have hsteps : ∀ (κ : Kind) (ts : List String),
      (((ts.map (fun t => (t, κ))).flatMap
        (fun q => (arrayify i q.1).map (q.2.edit q.1))).map Edit.step).sum
        = (ts.map (fun t => (arrayify i t).length)).sum * κ.step := by
    intro κ ts
    induction ts with
    | nil => simp
    | cons t ts ih =>
      rw [List.map_cons, List.flatMap_cons, List.map_append, List.sum_append, ih, List.map_cons,
        List.sum_cons, Nat.add_mul]
      simp [Kind.edit, Function.comp_def]
  rw [hostEdits, Metrics.kinds, List.flatMap_append, List.flatMap_append, List.flatMap_append,
    List.map_append, List.map_append, List.map_append, List.sum_append, List.sum_append,
    List.sum_append, hsteps, hsteps, hsteps, hsteps]
  simp [Kind.mean, Kind.median, Kind.least, Kind.greatest]

theorem sum_steps (m : Metrics) (data : List R) :
    ((data.flatMap (hostEdits arrayify m)).map Edit.step).sum = total arrayify m data := by
  induction data with
  | nil => simp [total, values]
  | cons i data ih =>
    rw [List.flatMap_cons, List.map_append, List.sum_append, ih, sum_steps_host, total, total,
      ← List.sum_map_add]
    simp [values]

/-! ## The slots at the end -/

/-- The state before the loop. -/
def begin (m : Metrics) (data : List R) : Scan :=
  ⟨0, (start m).insert "count" (.number data.length)⟩

theorem start_eq (m : Metrics) :
    start m = Dict.ofList (m.kinds.map (fun q => (q.1, q.2.start))) := by
  simp [start, Dict.ofList, Metrics.kinds, List.foldl_append, List.foldl_map, Kind.mean,
    Kind.median, Kind.least, Kind.greatest]

theorem lookup_begin {m : Metrics} (data : List R) {k : String} (hk : k ∈ m.keys) :
    (begin m data).summary.lookup k = some (startOf (m.waysOf k)) := by
  have hne : k ≠ "count" := fun heq => m.count_notMem (heq ▸ hk)
  have hlast : (m.waysOf k).getLast? = (m.kinds.reverse.find? (fun q => q.1 = k)).map Prod.snd := by
    rw [Metrics.waysOf, List.getLast?_map, List.getLast?_filter]
  have hlook : (start m).lookup k = (m.waysOf k).getLast?.map Kind.start := by
    rw [start_eq, Dict.ofList, Dict.lookup_foldl_insert, AList.lookup_empty, Option.or_none,
      ← List.map_reverse, List.find?_map, hlast, Option.map_map, Option.map_map]
    rfl
  obtain ⟨q, hq, rfl⟩ := List.mem_map.mp (m.map_fst_kinds ▸ hk)
  obtain ⟨κ, hκ⟩ : ∃ κ, (m.waysOf q.1).getLast? = some κ := by
    rw [hlast]
    cases hfind : m.kinds.reverse.find? (fun q' => q'.1 = q.1) with
    | none =>
      have hnot := List.find?_eq_none.mp hfind q (List.mem_reverse.mpr hq)
      exact absurd (decide_eq_true rfl) hnot
    | some q' => exact ⟨q'.2, rfl⟩
  rw [begin, AList.lookup_insert_ne hne, hlook, startOf, hκ]
  rfl

theorem lookup_begin_none {m : Metrics} (data : List R) {k : String} (hcount : k ≠ "count")
    (hk : k ∉ m.keys) : (begin m data).summary.lookup k = none := by
  rw [begin, AList.lookup_insert_ne hcount, start_eq, Dict.ofList]
  rcases Dict.lookup_foldl_insert_cases (m.kinds.map (fun q => (q.1, q.2.start))) ∅ k with
    ⟨v, hv, -⟩ | ⟨-, hnone⟩
  · obtain ⟨q, hq, heq⟩ := List.mem_map.mp hv
    exact absurd (m.map_fst_kinds ▸ List.mem_map.mpr ⟨q, hq, (Prod.mk.inj heq).1⟩) hk
  · rw [hnone, AList.lookup_empty]

/-- The slot `count` is not edited. -/
theorem lookup_count {m : Metrics} {data : List R} (cn : ℕ) {es : List Edit} {c : Scan}
    (hes : ∀ e ∈ es, e ∈ edits arrayify m data cn) (h : es.foldlM Edit.run (begin m data) = .ok c) :
    c.summary.lookup "count" = some (.number data.length) := by
  have hchanges : changes "count" es = [] :=
    changes_eq_nil (fun e he heq =>
      m.count_notMem (heq ▸ mem_keys_of_mem_edits arrayify (hes e he)))
  obtain ⟨v, happ, hv⟩ := run_lookup h (k := "count") (AList.lookup_insert _)
  rw [hchanges] at happ
  rw [hv, ← Except.ok.inj happ]

/-! ## The deletion of empty slots -/

theorem prune_of_lookup {s : Summary} {t : String} {v : Slot} (hv : s.lookup t = some v) :
    ∃ s', prune s t = .ok s'
      ∧ ∀ k, s'.lookup k = if k = t then (some v).filter (fun v => !v.isEmpty) else s.lookup k := by
  refine ⟨if v.isEmpty then s.erase t else s, by rw [prune, hv], fun k => ?_⟩
  by_cases hk : k = t
  · subst hk
    rw [if_pos rfl, Option.filter_some]
    cases v.isEmpty
    · exact hv
    · exact AList.lookup_erase _ _
  · rw [if_neg hk]
    split_ifs
    · exact AList.lookup_erase_ne hk
    · rfl

theorem prune_eq_ok {s s' : Summary} {t : String} (h : prune s t = .ok s') :
    ∃ v, s.lookup t = some v
      ∧ ∀ k, s'.lookup k = if k = t then (some v).filter (fun v => !v.isEmpty) else s.lookup k := by
  cases hv : s.lookup t with
  | none =>
    rw [prune, hv] at h
    cases h
  | some v =>
    obtain ⟨s'', hs'', hlook⟩ := prune_of_lookup hv
    obtain rfl := Except.ok.inj (h.symm.trans hs'')
    exact ⟨v, rfl, hlook⟩

theorem prune_lookup {ts : List String} {s s' : Summary} (h : ts.foldlM prune s = .ok s')
    (k : String) : s'.lookup k = if k ∈ ts then (s.lookup k).filter (fun v => !v.isEmpty)
      else s.lookup k := by
  induction ts generalizing s with
  | nil =>
    obtain rfl := Except.ok.inj h
    exact (if_neg List.not_mem_nil).symm
  | cons t ts ih =>
    obtain ⟨s₁, hs₁, h⟩ := Except.bind_eq_ok.mp ((List.foldlM_cons ..).symm.trans h)
    obtain ⟨v, hv, hlook⟩ := prune_eq_ok hs₁
    rw [ih h, hlook]
    by_cases hk : k = t
    · subst hk
      rw [if_pos rfl, if_pos List.mem_cons_self, hv, Option.filter_some]
      cases hempty : v.isEmpty <;> simp [hempty]
    · simp [hk]

/-- A slot that is gone cannot be deleted again. -/
theorem not_prune_gone {ts : List String} {s s' : Summary} (h : ts.foldlM prune s = .ok s')
    {t : String} (ht : t ∈ ts) : s.lookup t ≠ none := by
  induction ts generalizing s with
  | nil => cases ht
  | cons u ts ih =>
    obtain ⟨s₁, hs₁, h⟩ := Except.bind_eq_ok.mp ((List.foldlM_cons ..).symm.trans h)
    obtain ⟨v, hv, hlook⟩ := prune_eq_ok hs₁
    by_cases htu : t = u
    · rw [htu, hv]
      exact Option.some_ne_none v
    · have hrest := ih h ((List.mem_cons.mp ht).resolve_left htu)
      rwa [hlook, if_neg htu] at hrest

/-- A slot that is met twice is not empty. -/
theorem prune_twice {ts : List String} {s s' : Summary} (h : ts.foldlM prune s = .ok s')
    {t : String} (ht : 1 < ts.count t) : (s.lookup t).any Slot.isEmpty = false := by
  induction ts generalizing s with
  | nil =>
    rw [List.count_nil] at ht
    cases ht
  | cons u ts ih =>
    obtain ⟨s₁, hs₁, h⟩ := Except.bind_eq_ok.mp ((List.foldlM_cons ..).symm.trans h)
    obtain ⟨v, hv, hlook⟩ := prune_eq_ok hs₁
    by_cases htu : u = t
    · subst htu
      rw [List.count_cons_self] at ht
      have hthere := not_prune_gone h (List.count_pos_iff.mp (by omega : 0 < ts.count u))
      rw [hlook, if_pos rfl, Option.filter_some] at hthere
      rw [hv]
      cases hempty : v.isEmpty with
      | false => exact hempty
      | true => simp [hempty] at hthere
    · rw [List.count_cons_of_ne htu] at ht
      have hrest := ih h ht
      rwa [hlook, if_neg (Ne.symm htu)] at hrest

/-- **The deletion does not raise** where no empty slot is met twice. -/
theorem prune_total {ts : List String} {s : Summary} (h : ∀ t ∈ ts, s.lookup t ≠ none)
    (hkeep : ∀ t, 1 < ts.count t → (s.lookup t).any Slot.isEmpty = false) :
    ∃ s', ts.foldlM prune s = .ok s' := by
  induction ts generalizing s with
  | nil => exact ⟨s, rfl⟩
  | cons t ts ih =>
    obtain ⟨v, hv⟩ := Option.ne_none_iff_exists'.mp (h t List.mem_cons_self)
    obtain ⟨s₁, hs₁, hlook⟩ := prune_of_lookup hv
    -- what comes again is still there
    have hsame : ∀ u ∈ ts, s₁.lookup u = s.lookup u := by
      intro u hu
      rw [hlook]
      split_ifs with hut
      · subst hut
        have hcount : 1 < (u :: ts).count u := by
          have := List.count_pos_iff.mpr hu
          rw [List.count_cons_self]
          omega
        have hfull := hkeep u hcount
        rw [hv] at hfull ⊢
        rw [Option.filter_some, if_pos]
        exact congrArg (fun b => !b) hfull
      · rfl
    rw [List.foldlM_cons, hs₁, Except.ok_bind]
    refine ih (fun u hu => ?_) (fun u hu => ?_)
    · rw [hsame u hu]
      exact h u (List.mem_cons_of_mem t hu)
    · rw [hsame u (List.count_pos_iff.mp (by omega))]
      exact hkeep u (lt_of_lt_of_le hu List.count_le_count_cons)

theorem length_hosts {data : List R} (h : 4 ≤ data.length) :
    (hosts data).length + 2 = data.length := by
  rw [hosts, if_pos (by omega), List.length_tail, List.length_dropLast]
  omega

/-! ## The slots of a report -/

/-- The metrics in the order of the deletion loop. -/
def pruned (m : Metrics) : List String := m.median ++ m.mean ++ m.mins ++ m.maxs

theorem pruned_perm (m : Metrics) : (pruned m).Perm m.keys :=
  (List.perm_append_comm.append_right m.mins).append_right m.maxs

/-- The report as a sequence of edits. -/
theorem report_eq (m : Metrics) {records : List R} (h : 4 ≤ records.length) :
    report arrayify m records = (do
      let c ← (edits arrayify m (hosts records) (total arrayify m (hosts records))).foldlM Edit.run
        (begin m (hosts records))
      (pruned m).foldlM prune c.summary) := by
  have hlen := length_hosts h
  have hloop : (hosts records).foldlM (visitHost arrayify m) (begin m (hosts records))
      = ((hosts records).flatMap (hostEdits arrayify m)).foldlM Edit.run
        (begin m (hosts records)) := by
    rw [foldlM_flatMap]
    exact congrArg (fun f => (hosts records).foldlM f (begin m (hosts records)))
      (funext fun c => funext fun i => visitHost_eq arrayify m c i)
  unfold report
  simp only [if_pos (by omega : 1 < (hosts records).length)]
  rw [show (⟨0, (start m).insert "count" (.number (hosts records).length)⟩ : Scan)
    = begin m (hosts records) from rfl, hloop, edits, List.foldlM_append]
  cases hrun : ((hosts records).flatMap (hostEdits arrayify m)).foldlM Edit.run
      (begin m (hosts records)) with
  | error e => rfl
  | ok c =>
    have hcount : c.summary.lookup "count" = some (.number (hosts records).length) :=
      lookup_count arrayify 0 (fun e he => List.mem_append_left _ he) hrun
    have hcn : c.cn = total arrayify m (hosts records) := by
      rw [run_cn hrun, sum_steps]
      exact Nat.zero_add _
    have hzero : ¬ c.summary.lookup "count" = some (.number 0) := by
      rw [hcount]
      intro heq
      have hq := Slot.number.inj (Option.some.inj heq)
      have hnil : (hosts records).length = 0 := by exact_mod_cast hq
      omega
    rw [Except.ok_bind, if_neg hzero, summarise_eq, hcn, Except.ok_bind]
    rfl

section Report

variable {arrayify} {m : Metrics} {records : List R} (h : 4 ≤ records.length)
include h

/-- **What is reported of a metric** is what becomes of its slot, if anything is in it; an empty
slot belongs to a metric that is asked for once. -/
theorem report_lookup {s : Summary} (hs : report arrayify m records = .ok s) {k : String}
    (hk : k ∈ m.keys) : ∃ v, result (m.waysOf k) (total arrayify m (hosts records))
        (lists arrayify (hosts records) k) = .ok v
      ∧ (1 < (m.waysOf k).length → v.isEmpty = false)
      ∧ s.lookup k = (some v).filter (fun v => !v.isEmpty) := by
  rw [report_eq arrayify m h] at hs
  obtain ⟨c, hc, hs⟩ := Except.bind_eq_ok.mp hs
  obtain ⟨v, happ, hv⟩ := run_lookup hc (lookup_begin (hosts records) hk)
  rw [apply_changes] at happ
  refine ⟨v, happ, fun htwice => ?_, ?_⟩
  · rw [m.length_waysOf, ← (pruned_perm m).count_eq] at htwice
    have hfull := prune_twice hs htwice
    rwa [hv] at hfull
  · rw [prune_lookup hs, if_pos ((pruned_perm m).mem_iff.mpr hk), hv]

/-- What else is reported. -/
theorem report_others {s : Summary} (hs : report arrayify m records = .ok s) :
    s.lookup "count" = some (.number (hosts records).length)
      ∧ ∀ k, k ≠ "count" → k ∉ m.keys → s.lookup k = none := by
  rw [report_eq arrayify m h] at hs
  obtain ⟨c, hc, hs⟩ := Except.bind_eq_ok.mp hs
  constructor
  · rw [prune_lookup hs, if_neg (fun hmem => m.count_notMem ((pruned_perm m).mem_iff.mp hmem))]
    exact lookup_count arrayify _ (fun e he => he) hc
  · intro k hcount hk
    rw [prune_lookup hs, if_neg (fun hmem => hk ((pruned_perm m).mem_iff.mp hmem))]
    exact run_lookup_none hc (lookup_begin_none (hosts records) hcount hk)

/-- **A report does not raise** where no slot's changes do, and no slot of a metric that is asked
for twice is empty. -/
theorem report_total (hres : ∀ k ∈ m.keys, ∃ v, result (m.waysOf k)
      (total arrayify m (hosts records)) (lists arrayify (hosts records) k) = .ok v
        ∧ (1 < (m.waysOf k).length → v.isEmpty = false)) :
    ∃ s, report arrayify m records = .ok s := by
  rw [report_eq arrayify m h]
  have hslots : ∀ e ∈ edits arrayify m (hosts records) (total arrayify m (hosts records)),
      ∃ v v', (begin m (hosts records)).summary.lookup e.key = some v
        ∧ apply (changes e.key
          (edits arrayify m (hosts records) (total arrayify m (hosts records)))) v = .ok v' := by
    intro e he
    have hkey := mem_keys_of_mem_edits arrayify he
    obtain ⟨v, hv, -⟩ := hres e.key hkey
    exact ⟨_, v, lookup_begin _ hkey, (apply_changes arrayify m (hosts records) _ e.key).trans hv⟩
  obtain ⟨c, hc⟩ := run_total hslots
  have hslot : ∀ k ∈ m.keys, ∃ v, c.summary.lookup k = some v
      ∧ (1 < m.keys.count k → v.isEmpty = false) := by
    intro k hk
    obtain ⟨v, hv, hfull⟩ := hres k hk
    obtain ⟨w, happ, hw⟩ := run_lookup hc (lookup_begin (hosts records) hk)
    rw [apply_changes, hv] at happ
    obtain rfl := Except.ok.inj happ
    rw [m.length_waysOf] at hfull
    exact ⟨v, hw, hfull⟩
  rw [hc, Except.ok_bind]
  refine prune_total (fun k hk => ?_) (fun k hk => ?_)
  · obtain ⟨v, hv, -⟩ := hslot k ((pruned_perm m).mem_iff.mp hk)
    rw [hv]
    exact Option.some_ne_none v
  · rw [(pruned_perm m).count_eq] at hk
    obtain ⟨v, hv, hfull⟩ := hslot k (List.count_pos_iff.mp (by omega))
    rw [hv]
    exact hfull hk

end Report

end SubnetScanner
