import EventTime.Proofs.Pane.Audit

/-!
# Chronicles of runs

A chronicle is a run that writes down, beside what it does, which windows it merges, which panes it
fires and where the watermark stands then, and which windows it collects, in the order in which this
happens. Without these entries it is the run itself.
-/

namespace EventTime

variable {ν : Type} {s : Strategy}

/-- Something that happens in a run. -/
inductive Entry (ν : Type)
  | merged (m : Merge)
  | fired (pane : Pane ν) (watermark : Int)
  | collected (w : Window)

/-- A grouping, part of the way through its elements, with what has happened so far. -/
structure Chronicle (s : Strategy) (ν : Type) where
  grouper : Grouper s ν := {}
  entries : List (Entry ν) := []

namespace Chronicle

def write (c : Chronicle s ν) (e : Entry ν) : Chronicle s ν := ⟨c.grouper, c.entries ++ [e]⟩

/-- Go on with a grouping, and write down the panes that it has fired in addition. -/
def note (c : Chronicle s ν) (g : Grouper s ν) : Chronicle s ν :=
  ⟨g, c.entries ++ (g.panes.drop c.grouper.panes.length).map (.fired · g.watermark)⟩

def mergeOne (c : Chronicle s ν) (m : Merge) : Except Fault (Chronicle s ν) :=
  (c.grouper.mergeOne m).map (c.write (.merged m)).note

def mergeEach : List Merge → Chronicle s ν → Window → Except Fault (Chronicle s ν × Window)
  | [], c, w => .ok (c, w)
  | m :: rest, c, w => do
    mergeEach rest (← c.mergeOne m) (if w ∈ m.olds then m.into else w)

def mergeWindows (c : Chronicle s ν) (assigned : Window) : Except Fault (Chronicle s ν × Window) :=
  if s.windowFn.nonMerging then .ok (c, assigned)
  else do mergeEach (← s.windowFn.merge c.grouper.buffers.keys) c assigned

def place (c : Chronicle s ν) (x : Listing ν) : Except Fault (Chronicle s ν) :=
  if s.expiry x.window < c.grouper.watermark then .ok c
  else do
    let (c, w) ← mergeWindows ⟨c.grouper.opened x.window, c.entries⟩ x.window
    (c.grouper.deliver w x.timestamp x.value).map c.note

def collect (c : Chronicle s ν) (w : Window) : Chronicle s ν :=
  (c.note (c.grouper.collect w)).write (.collected w)

def advance (c : Chronicle s ν) (target : Int) : Except Fault (Chronicle s ν) :=
  if target ≤ c.grouper.watermark then .ok c
  else do
    let g := { c.grouper with watermark := target }
    let g ← Grouper.drain (g.state.dueTimers target).length g
    return g.expired.foldl collect (c.note g)

def follow (mode : InputWatermark) (c : Chronicle s ν) (timestamp : Int) :
    Except Fault (Chronicle s ν) :=
  match mode with
  | .elementTime => c.advance timestamp
  | .heldUntilEnd => .ok c

def take (mode : InputWatermark) (c : Chronicle s ν) (e : Envelope ν) :
    Except Fault (Chronicle s ν) := do
  e.windows.foldlM (fun c w => c.place ⟨e.timestamp, w, e.value⟩) (← c.follow mode e.timestamp)

/-- Group every element of one key and answer what has happened until the input has ended. -/
def run (s : Strategy) (mode : InputWatermark) (elements : List (Envelope ν)) :
    Except Fault (Chronicle s ν) := do
  let c ← (Grouper.inTimeOrder elements).foldlM (take mode) {}
  c.advance maxTime

theorem grouper_mergeOne (c : Chronicle s ν) (m : Merge) :
    (c.mergeOne m).map grouper = c.grouper.mergeOne m := by
  simp only [mergeOne]
  cases c.grouper.mergeOne m <;> rfl

theorem grouper_mergeEach (ms : List Merge) (c : Chronicle s ν) (w : Window) :
    (mergeEach ms c w).map (fun p => (p.1.grouper, p.2)) = Grouper.mergeEach ms c.grouper w := by
  induction ms generalizing c w with
  | nil => rfl
  | cons m rest ih =>
    rw [mergeEach, Grouper.mergeEach, ← grouper_mergeOne]
    cases c.mergeOne m with
    | error e => rfl
    | ok c' => exact ih c' _

theorem grouper_mergeWindows (c : Chronicle s ν) (w : Window) :
    (c.mergeWindows w).map (fun p => (p.1.grouper, p.2)) = c.grouper.mergeWindows w := by
  rw [mergeWindows, Grouper.mergeWindows]
  split
  · rfl
  · cases s.windowFn.merge c.grouper.buffers.keys with
    | error e => rfl
    | ok ms => exact grouper_mergeEach ms c w

theorem grouper_place (c : Chronicle s ν) (x : Listing ν) :
    (c.place x).map grouper = c.grouper.place x.timestamp x.value x.window := by
  rw [place, Grouper.place]
  split
  · rfl
  · rw [← grouper_mergeWindows ⟨c.grouper.opened x.window, c.entries⟩]
    cases mergeWindows ⟨c.grouper.opened x.window, c.entries⟩ x.window with
    | error e => rfl
    | ok p =>
      show (Except.map _ (p.1.grouper.deliver p.2 x.timestamp x.value)).map grouper =
        p.1.grouper.deliver p.2 x.timestamp x.value
      cases p.1.grouper.deliver p.2 x.timestamp x.value <;> rfl

theorem grouper_collectAll (ws : List Window) (c : Chronicle s ν) :
    (ws.foldl collect c).grouper = ws.foldl Grouper.collect c.grouper := by
  induction ws generalizing c with
  | nil => rfl
  | cons w rest ih => exact ih (c.collect w)

theorem grouper_advance (c : Chronicle s ν) (target : Int) :
    (c.advance target).map grouper = c.grouper.advance target := by
  rw [advance, Grouper.advance]
  split
  · rfl
  · simp only [bind, Except.bind]
    split
    · rfl
    · exact congrArg Except.ok (grouper_collectAll ..)

theorem grouper_follow (mode : InputWatermark) (c : Chronicle s ν) (timestamp : Int) :
    (c.follow mode timestamp).map grouper = c.grouper.follow mode timestamp := by
  cases mode with
  | elementTime => exact grouper_advance c timestamp
  | heldUntilEnd => rfl

theorem grouper_take (mode : InputWatermark) (c : Chronicle s ν) (e : Envelope ν) :
    (c.take mode e).map grouper = c.grouper.take mode e := by
  rw [take, Grouper.take_eq, ← grouper_follow]
  cases c.follow mode e.timestamp with
  | error f => rfl
  | ok c' =>
    exact map_foldlM grouper (k := fun g w => g.place e.timestamp e.value w)
      (fun c w => grouper_place c ⟨e.timestamp, w, e.value⟩) e.windows c'

/-- A chronicle is a run with entries. -/
theorem panes_run (s : Strategy) (mode : InputWatermark) (elements : List (Envelope ν)) :
    (run s mode elements).map (·.grouper.panes) = Grouper.run s mode elements := by
  rw [run, Grouper.run, ← map_foldlM grouper (grouper_take mode) _ ({} : Chronicle s ν)]
  cases List.foldlM (take mode) ({} : Chronicle s ν) (Grouper.inTimeOrder elements) with
  | error f => rfl
  | ok c =>
    show (c.advance maxTime).map _ = (c.grouper.advance maxTime).bind _
    rw [← grouper_advance]
    cases c.advance maxTime <;> rfl

end Chronicle

end EventTime
