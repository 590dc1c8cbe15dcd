/-
# The buffer of InfluxDB lines

`save` adds its line to the buffer, and once there are enough of them it sends them all in one
request.  A request that fails raises out of `save` with the line already in the buffer, so that
the next `save` tries again with one line more; the worker goes on with the next item.
-/
import Ptolemy.InfluxLines
import Ptolemy.Run

namespace Influx

variable {φ : Type}

/-! ## The storer -/

/-- What a storer is set up with. -/
structure Config : Type where
  dbname : String := ""
  user : String := "ptolemy"
  password : String := "ptolemy"
  /-- The number of lines to send at once. -/
  chunks : ℕ := 100

/-- Lines that were sent in one request, and the threshold at that time. -/
structure Batch : Type where
  lines : List String
  threshold : ℕ
  deriving DecidableEq

/-- The buffer, the threshold in force, and what was delivered. -/
structure Storer : Type where
  dataCache : List String := []
  currentChunks : ℕ := 100
  delivered : List Batch := []
  deriving DecidableEq

/-- One call of `save`, the server that `choice` picks and how `urlopen` ends. -/
structure Saving : Type where
  call : SaveCall
  server : String
  urlopen : String → String → Except Exn Unit

variable (cfg : Config) (F : Floats φ) (o : IterOrder)

def Config.url (server : String) : String :=
  "http://" ++ server ++ "/write?db=" ++ cfg.dbname ++ "&u=" ++ cfg.user ++ "&p=" ++ cfg.password
    ++ "&precision=s"

/-- The line of a call. -/
def Saving.line (e : Saving) : Except Exn String :=
  encode F o e.call.time e.call.meta' e.call.context e.call.data

/-- `save`. -/
def save (s : Storer) (e : Saving) : Except Exn Unit × Storer :=
  match e.line F o with
  | .error x => (.error x, s)
  | .ok this =>
    let s := { s with dataCache := s.dataCache ++ [this] }
    if s.dataCache.length ≥ s.currentChunks then
      match e.urlopen (cfg.url e.server) (Text.join "\n" s.dataCache) with
      | .error x => (.error x, s)
      -- `code` is set to 200, so that the other branch is never taken
      | .ok () => (.ok (),
          { dataCache := [], currentChunks := cfg.chunks,
            delivered := s.delivered ++ [⟨s.dataCache, s.currentChunks⟩] })
    else (.ok (), s)

/-- The worker goes on after every call. -/
def step (s : Storer) (e : Saving) : Storer := (save cfg F o s e).2

/-- The lines of some calls; one that does not come to its line adds none. -/
def linesOf (es : List Saving) : List String := es.flatMap (fun e => (e.line F o).toOption.toList)

/-! ## One call -/

/-- All lines so far, the delivered ones first. -/
def Storer.lines (s : Storer) : List String := s.delivered.flatMap Batch.lines ++ s.dataCache

/-- No batch is short, and there is a threshold. -/
structure Sound (s : Storer) : Prop where
  batches : ∀ b ∈ s.delivered, b.threshold ≤ b.lines.length
  threshold : 1 ≤ s.currentChunks

/-- A call whose line is not sent. -/
def Storer.push (s : Storer) (l : String) : Storer := { s with dataCache := s.dataCache ++ [l] }

/-- A call that sends the buffer. -/
def Storer.flush (s : Storer) : Storer :=
  { dataCache := [], currentChunks := cfg.chunks,
    delivered := s.delivered ++ [⟨s.dataCache, s.currentChunks⟩] }

/-- What a call can do: nothing, where there is no line; else the line is added, and the buffer
stays where it is small or where the request fails, and is sent otherwise. -/
theorem save_cases (s : Storer) (e : Saving) :
    (∃ x, e.line F o = .error x ∧ save cfg F o s e = (.error x, s))
      ∨ ∃ l, e.line F o = .ok l
        ∧ ((s.push l).dataCache.length < s.currentChunks
              ∧ save cfg F o s e = (.ok (), s.push l)
          ∨ s.currentChunks ≤ (s.push l).dataCache.length
              ∧ ((∃ x, save cfg F o s e = (.error x, s.push l))
                ∨ save cfg F o s e = (.ok (), (s.push l).flush cfg))) := by
  unfold save
  cases hline : e.line F o with
  | error x => exact Or.inl ⟨x, rfl, rfl⟩
  | ok l =>
    refine Or.inr ⟨l, rfl, ?_⟩
    simp only
    split_ifs with hlen
    · refine Or.inr ⟨hlen, ?_⟩
      cases hsend : e.urlopen (cfg.url e.server) (Text.join "\n" (s.dataCache ++ [l])) with
      | error x => exact Or.inl ⟨x, rfl⟩
      | ok u => exact Or.inr rfl
    · exact Or.inl ⟨not_le.mp hlen, rfl⟩

theorem lines_push (s : Storer) (l : String) : (s.push l).lines = s.lines ++ [l] := by
  simp [Storer.lines, Storer.push]

theorem lines_flush (s : Storer) : (s.flush cfg).lines = s.lines := by
  simp [Storer.lines, Storer.flush]

/-- A call adds its line and loses none. -/
theorem lines_step (s : Storer) (e : Saving) :
    (step cfg F o s e).lines = s.lines ++ (e.line F o).toOption.toList := by
  rcases save_cases cfg F o s e with ⟨x, hline, h⟩ | ⟨l, hline, ⟨-, h⟩ | ⟨-, ⟨x, h⟩ | h⟩⟩
  · rw [step, h, hline]
    simp [Except.toOption]
  · rw [step, h, hline, lines_push]
    rfl
  · rw [step, h, hline, lines_push]
    rfl
  · rw [step, h, hline, lines_flush, lines_push]
    rfl

variable {cfg}

theorem sound_step (hchunks : 1 ≤ cfg.chunks) (s : Storer) (e : Saving) (hs : Sound s) :
    Sound (step cfg F o s e) := by
  rcases save_cases cfg F o s e with ⟨x, -, h⟩ | ⟨l, -, ⟨-, h⟩ | ⟨hlen, ⟨x, h⟩ | h⟩⟩
  · rwa [step, h]
  · rw [step, h]
    exact ⟨hs.batches, hs.threshold⟩
  · rw [step, h]
    exact ⟨hs.batches, hs.threshold⟩
  · rw [step, h]
    refine ⟨fun b hb => ?_, hchunks⟩
    rcases List.mem_append.mp hb with hb | hb
    · exact hs.batches b hb
    · rw [List.mem_singleton.mp hb]
      exact hlen

/-- After a call that did not raise the buffer is shorter than the threshold, that before the call
and that after it. -/
theorem short_of_save (hchunks : 1 ≤ cfg.chunks) {s : Storer} (hs : Sound s) {e : Saving}
    (hok : (save cfg F o s e).1 = .ok ()) :
    (step cfg F o s e).dataCache.length < s.currentChunks
      ∧ (step cfg F o s e).dataCache.length < (step cfg F o s e).currentChunks := by
  rcases save_cases cfg F o s e with ⟨x, -, h⟩ | ⟨l, -, ⟨hlen, h⟩ | ⟨-, ⟨x, h⟩ | h⟩⟩
  · rw [h] at hok
    cases hok
  · rw [step, h]
    exact ⟨hlen, hlen⟩
  · rw [h] at hok
    cases hok
  · rw [step, h]
    exact ⟨hs.threshold, hchunks⟩

/-! ## A run -/

variable (cfg) in
theorem lines_run (s : Storer) (es : List Saving) :
    (Run.run (step cfg F o) s es).lines = s.lines ++ linesOf F o es := by
  induction es generalizing s with
  | nil => simp [Run.run, linesOf]
  | cons e es ih =>
    rw [Run.run_cons, ih, lines_step, linesOf, linesOf, List.flatMap_cons, List.append_assoc]

/-- **Nothing is lost, sent twice or out of order**, whatever calls and requests fail: the
delivered batches and the buffer are all lines in the order of the calls, no batch is shorter than
its threshold, and whenever a call does not raise the buffer is shorter than the threshold. -/
theorem buffered {start : ℕ} (hstart : 1 ≤ start) (hchunks : 1 ≤ cfg.chunks) (es : List Saving) :
    (Run.run (step cfg F o) { currentChunks := start } es).lines = linesOf F o es
      ∧ Run.Always (step cfg F o) (fun s => ∀ b ∈ s.delivered, b.threshold ≤ b.lines.length)
        { currentChunks := start } es
      ∧ Run.Along (step cfg F o) (fun s e => (save cfg F o s e).1 = .ok () →
          (step cfg F o s e).dataCache.length < s.currentChunks
            ∧ (step cfg F o s e).dataCache.length < (step cfg F o s e).currentChunks)
        { currentChunks := start } es := by
  have hsound : Sound { currentChunks := start } := ⟨by simp, hstart⟩
  refine ⟨lines_run cfg F o _ es, ?_, ?_⟩
  · exact (Run.Always.of_step (sound_step F o hchunks) hsound es).imp (fun s hs => hs.batches)
  · exact Run.Along.imp (sound_step F o hchunks)
      (fun s e hs _ hok => short_of_save F o hchunks hs (e := e) hok) hsound (Run.along_true _ es)

/-- A request that fails and one that comes through, with a threshold of two. -/
def failing : Saving :=
  ⟨⟨.int 0, portMeta, values (Dict.ofList [("device", "r")]), values (Dict.ofList [("in", "5")]),
    none⟩, "influx", fun _ _ => .error (.exception "urlopen error")⟩

/-- Two calls whose requests fail, and one that sends all three lines. -/
def recovering : List Saving := [failing, failing, { failing with urlopen := fun _ _ => .ok () }]

theorem buffered_failing :
    (Run.run (step { chunks := 3 } whole .stored) { currentChunks := 2 } recovering).lines
        = linesOf whole .stored recovering
      ∧ Run.Always (step { chunks := 3 } whole .stored)
        (fun s => ∀ b ∈ s.delivered, b.threshold ≤ b.lines.length) { currentChunks := 2 } recovering
      ∧ Run.Along (step { chunks := 3 } whole .stored) (fun s e =>
          (save { chunks := 3 } whole .stored s e).1 = .ok () →
            (step { chunks := 3 } whole .stored s e).dataCache.length < s.currentChunks
              ∧ (step { chunks := 3 } whole .stored s e).dataCache.length
                < (step { chunks := 3 } whole .stored s e).currentChunks)
        { currentChunks := 2 } recovering :=
  buffered whole .stored (by decide) (by decide) recovering

end Influx
