import EventTime.Proofs.Pane.Watermark

/-!
# The states that a run passes

A trail lists the states between the small operations of a run: after each move of the watermark,
each timer that is delivered, each window that is collected, each window that is opened, each merge
and each listing that is placed. The operations themselves lead from one state to the next, and the
trail of a run that comes to its end ends where the run does.
-/

namespace EventTime

section Series

variable {α β : Type}

/-- The states passed after a step that answers; there are none after one that fails. -/
def afterwards (answer : Except Fault α) (k : α → List β) : List β :=
  match answer with
  | .ok a => k a
  | .error _ => []

/-- The states passed by the steps of a series, each of which has a trail of its own. -/
def seriesTrail (trail : β → α → List β) (step : β → α → Except Fault β) : β → List α → List β
  | _, [] => []
  | b, a :: rest => trail b a ++ afterwards (step b a) fun b' => seriesTrail trail step b' rest

theorem mem_afterwards {answer : Except Fault α} {k : α → List β} {b : β} :
    b ∈ afterwards answer k ↔ ∃ a, answer = .ok a ∧ b ∈ k a := by
  cases answer <;> simp [afterwards]

/-- A trail that starts after `b` ends at `b'`. -/
def EndsAt (b : β) (trail : List β) (b' : β) : Prop := trail.getLast?.getD b = b'

theorem EndsAt.append {b b' b'' : β} {trail trail' : List β} (h : EndsAt b trail b')
    (h' : EndsAt b' trail' b'') : EndsAt b (trail ++ trail') b'' := by
  unfold EndsAt at *
  rw [List.getLast?_append, ← h', ← h]
  cases trail'.getLast? <;> rfl

theorem endsAt_concat (b : β) (trail : List β) (b' : β) : EndsAt b (trail ++ [b']) b' := by
  simp [EndsAt]

variable {trail : β → α → List β} {step : β → α → Except Fault β}

theorem seriesTrail_endsAt (hstep : ∀ b a b', step b a = .ok b' → EndsAt b (trail b a) b')
    {l : List α} {b b' : β} (h : l.foldlM step b = .ok b') :
    EndsAt b (seriesTrail trail step b l) b' := by
  induction l generalizing b with
  | nil =>
    cases h
    rfl
  | cons a rest ih =>
    rw [List.foldlM_cons] at h
    obtain ⟨b₁, hone, hrest⟩ := ok_of_bind h
    simp only [seriesTrail, hone, afterwards]
    exact (hstep b a b₁ hone).append (ih hrest)

/-- What holds of the states on a trail, and of the one that is left if there is an answer. -/
structure Along (P : β → Prop) (trail : List β) (answer : Except Fault β) : Prop where
  passed : ∀ b ∈ trail, P b
  left : ∀ b, answer = .ok b → P b

variable {P : β → Prop}

theorem along_ok {b : β} (h : P b) : Along P [] (.ok b) :=
  ⟨nofun, fun _ hb => Except.ok.inj hb ▸ h⟩

theorem along_step {answer : Except Fault β} (h : ∀ b, answer = .ok b → P b) :
    Along P (afterwards answer ([·])) answer := by
  refine ⟨fun b hb => ?_, h⟩
  obtain ⟨b', hanswer, hb⟩ := mem_afterwards.mp hb
  exact List.mem_singleton.mp hb ▸ h b' hanswer

theorem Along.cons {b : β} {trail : List β} {answer : Except Fault β} (h : Along P trail answer)
    (hb : P b) : Along P (b :: trail) answer :=
  ⟨List.forall_mem_cons.mpr ⟨hb, h.passed⟩, h.left⟩

theorem Along.andThen {trail : List β} {answer : Except Fault β} (h : Along P trail answer)
    {next : β → List β} {k : β → Except Fault β} (hk : ∀ b, P b → Along P (next b) (k b)) :
    Along P (trail ++ afterwards answer next) (answer.bind k) := by
  refine ⟨fun c hc => ?_, fun c hc => ?_⟩
  · rcases List.mem_append.mp hc with hc | hc
    · exact h.passed c hc
    · obtain ⟨b, hb, hc⟩ := mem_afterwards.mp hc
      exact (hk b (h.left b hb)).passed c hc
  · obtain ⟨b, hb, hc⟩ := ok_of_bind hc
    exact (hk b (h.left b hb)).left c hc

/-- What holds along every step holds along a series, if every step leaves what the steps after it
need. -/
theorem along_series (I : List α → β → Prop) (hend : ∀ b, I [] b → P b)
    (hstep : ∀ a rest b, I (a :: rest) b →
      Along P (trail b a) (step b a) ∧ ∀ b', step b a = .ok b' → I rest b')
    {l : List α} {b : β} (h : I l b) :
    Along P (seriesTrail trail step b l) (l.foldlM step b) := by
  induction l generalizing b with
  | nil => exact along_ok (hend b h)
  | cons a rest ih =>
    obtain ⟨hone, hleft⟩ := hstep a rest b h
    refine ⟨fun c hc => ?_, fun c hc => ?_⟩
    · rcases List.mem_append.mp hc with hc | hc
      · exact hone.passed c hc
      · obtain ⟨b', hb', hc⟩ := mem_afterwards.mp hc
        exact (ih (hleft b' hb')).passed c hc
    · rw [List.foldlM_cons] at hc
      obtain ⟨b', hb', hc⟩ := ok_of_bind hc
      exact (ih (hleft b' hb')).left c hc

end Series

/-! ### Trails of operations -/

namespace Grouper

variable {ν : Type} {s : Strategy}

/-- The states after each merge the window function asks for. -/
def mergeTrail (g : Grouper s ν) : List (Grouper s ν) :=
  if s.windowFn.nonMerging then []
  else afterwards (s.windowFn.merge g.buffers.keys) fun ms =>
    seriesTrail (fun g m => afterwards (g.mergeOne m) ([·])) mergeOne g ms

/-- The states passed by a listing that is placed. -/
def placeTrail (g : Grouper s ν) (timestamp : Int) (v : ν) (assigned : Window) :
    List (Grouper s ν) :=
  (if s.expiry assigned < g.watermark then []
    else g.opened assigned :: (g.opened assigned).mergeTrail) ++
    afterwards (g.place timestamp v assigned) ([·])

/-- The states after each timer that is delivered. -/
def drainTrail : (fuel : Nat) → Grouper s ν → List (Grouper s ν)
  | 0, _ => []
  | fuel + 1, g =>
    match g.state.popDue g.watermark with
    | none => []
    | some (a, state) => afterwards ({ g with state }.deliverTimer a) fun g' =>
        g' :: drainTrail fuel g'

/-- The states after each window that is collected. -/
def collectTrail : List Window → Grouper s ν → List (Grouper s ν)
  | [], _ => []
  | w :: rest, g => g.collect w :: collectTrail rest (g.collect w)

/-- The states passed by a move of the watermark. -/
def advanceTrail (g : Grouper s ν) (target : Int) : List (Grouper s ν) :=
  if target ≤ g.watermark then []
  else
    let moved := { g with watermark := target }
    let due := (moved.state.dueTimers target).length
    moved :: drainTrail due moved ++
      afterwards (drain due moved) fun g' => collectTrail g'.expired g'

def followTrail (mode : InputWatermark) (g : Grouper s ν) (timestamp : Int) :
    List (Grouper s ν) :=
  match mode with
  | .elementTime => g.advanceTrail timestamp
  | .heldUntilEnd => []

/-- The states passed by an element: by the watermark first, and then by each window it lists. -/
def takeTrail (mode : InputWatermark) (g : Grouper s ν) (e : Envelope ν) : List (Grouper s ν) :=
  g.followTrail mode e.timestamp ++ afterwards (g.follow mode e.timestamp) fun g =>
    seriesTrail (fun g w => g.placeTrail e.timestamp e.value w)
      (fun g w => g.place e.timestamp e.value w) g e.windows

/-- The states passed by a run, from the one before the first element to the one in which the input
has ended. -/
def trail (s : Strategy) (mode : InputWatermark) (elements : List (Envelope ν)) :
    List (Grouper s ν) :=
  {} :: seriesTrail (takeTrail mode) (take mode) {} (inTimeOrder elements) ++
    afterwards ((inTimeOrder elements).foldlM (take mode) ({} : Grouper s ν)) fun g =>
      g.advanceTrail maxTime

variable {g g' : Grouper s ν}

theorem placeTrail_endsAt {timestamp : Int} {v : ν} {w : Window}
    (h : g.place timestamp v w = .ok g') : EndsAt g (g.placeTrail timestamp v w) g' := by
  rw [placeTrail, h]
  exact endsAt_concat ..

theorem drainTrail_endsAt {fuel : Nat} (h : drain fuel g = .ok g') :
    EndsAt g (drainTrail fuel g) g' := by
  induction fuel generalizing g with
  | zero =>
    cases h
    rfl
  | succ fuel ih =>
    cases hpop : g.state.popDue g.watermark with
    | none =>
      simp only [drain, hpop, Except.ok.injEq] at h
      simp only [drainTrail, hpop]
      exact h
    | some p =>
      simp only [drain, hpop] at h
      obtain ⟨g₁, hone, hrest⟩ := ok_of_bind h
      simp only [drainTrail, hpop, hone, afterwards]
      exact (endsAt_concat g [] g₁).append (ih hrest)

theorem collectTrail_endsAt (ws : List Window) (g : Grouper s ν) :
    EndsAt g (collectTrail ws g) (ws.foldl collect g) := by
  induction ws generalizing g with
  | nil => rfl
  | cons w rest ih => exact (endsAt_concat g [] (g.collect w)).append (ih _)

theorem advanceTrail_endsAt {target : Int} (h : g.advance target = .ok g') :
    EndsAt g (g.advanceTrail target) g' := by
  unfold advanceTrail
  rcases advance_cases h with ⟨hle, rfl⟩ | ⟨hlt, g₁, hdrain, rfl⟩
  · rw [if_pos hle]
    rfl
  · rw [if_neg (Int.not_le.mpr hlt)]
    simp only [hdrain, afterwards]
    have hmoved := endsAt_concat g [] { g with watermark := target }
    exact (hmoved.append (drainTrail_endsAt hdrain)).append (collectTrail_endsAt _ _)

theorem followTrail_endsAt {mode : InputWatermark} {timestamp : Int}
    (h : g.follow mode timestamp = .ok g') : EndsAt g (g.followTrail mode timestamp) g' := by
  cases mode with
  | elementTime => exact advanceTrail_endsAt h
  | heldUntilEnd =>
    cases h
    rfl

theorem takeTrail_endsAt {mode : InputWatermark} {e : Envelope ν} (h : g.take mode e = .ok g') :
    EndsAt g (g.takeTrail mode e) g' := by
  rw [take_eq] at h
  obtain ⟨g₁, hfollow, hplaces⟩ := ok_of_bind h
  simp only [takeTrail, hfollow, afterwards]
  exact (followTrail_endsAt hfollow).append
    (seriesTrail_endsAt (fun _ _ _ hplace => placeTrail_endsAt hplace) hplaces)

/-- A run that comes to its end answers the panes of the last state it passes. -/
theorem run_getLast_trail {mode : InputWatermark} {elements : List (Envelope ν)}
    {panes : List (Pane ν)} (h : run s mode elements = .ok panes) :
    ∃ g, (trail s mode elements).getLast? = some g ∧ g.panes = panes := by
  obtain ⟨g₁, hfold, hrest⟩ := ok_of_bind h
  obtain ⟨g, hadvance, hpanes⟩ := ok_of_bind hrest
  have hends := (seriesTrail_endsAt (fun _ _ _ htake => takeTrail_endsAt htake) hfold).append
    (advanceTrail_endsAt hadvance)
  refine ⟨g, ?_, Except.ok.inj hpanes⟩
  simp only [trail, hfold, afterwards, List.cons_append, List.getLast?_cons]
  exact congrArg some hends

/-- What the operations between the states of a trail keep. -/
structure Persistent (P : Grouper s ν → Prop) : Prop where
  start : P {}
  moved {g : Grouper s ν} (target : Int) : P g → P { g with watermark := target }
  opened {g : Grouper s ν} (w : Window) : P g → P (g.opened w)
  merged {g : Grouper s ν} (w : Window) :
    P g → Along P g.mergeTrail ((g.mergeWindows w).map Prod.fst)
  delivered {g g' : Grouper s ν} {w : Window} {timestamp : Int} {v : ν} :
    P g → g.deliver w timestamp v = .ok g' → P g'
  timed {g g' : Grouper s ν} {a : Timer} :
    P g → { g with state := g.state.cancel a }.deliverTimer a = .ok g' → P g'
  collected {g : Grouper s ν} (w : Window) : P g → P (g.collect w)

theorem mergeEach_fst (ms : List Merge) (g : Grouper s ν) (w : Window) :
    (mergeEach ms g w).map Prod.fst = ms.foldlM mergeOne g := by
  induction ms generalizing g w with
  | nil => rfl
  | cons m rest ih =>
    rw [mergeEach, List.foldlM_cons]
    cases g.mergeOne m with
    | error e => rfl
    | ok g' => exact ih g' _

namespace Persistent

variable {P : Grouper s ν → Prop}

theorem place (h : Persistent P) (hg : P g) (timestamp : Int) (v : ν) (w : Window) :
    Along P (g.placeTrail timestamp v w) (g.place timestamp v w) := by
  have hopened := h.opened w hg
  have hmerged := h.merged w hopened
  have hplaced : ∀ g', g.place timestamp v w = .ok g' → P g' := by
    intro g' heq
    unfold Grouper.place at heq
    split at heq
    · exact Except.ok.inj heq ▸ hg
    · obtain ⟨⟨g₁, w'⟩, hmerge, hdeliver⟩ := ok_of_bind heq
      exact h.delivered (hmerged.left g₁ (by rw [hmerge]; rfl)) hdeliver
  refine ⟨fun c hc => ?_, hplaced⟩
  rcases List.mem_append.mp hc with hc | hc
  · split at hc
    · cases hc
    · exact (hmerged.cons hopened).passed c hc
  · exact (along_step hplaced).passed c hc

theorem drain (h : Persistent P) (hg : P g) (fuel : Nat) :
    Along P (drainTrail fuel g) (Grouper.drain fuel g) := by
  induction fuel generalizing g with
  | zero => exact along_ok hg
  | succ fuel ih =>
    cases hpop : g.state.popDue g.watermark with
    | none =>
      simp only [drainTrail, Grouper.drain, hpop]
      exact along_ok hg
    | some p =>
      obtain ⟨a, state⟩ := p
      obtain ⟨-, -, -, rfl⟩ := TriggerState.popDue_some hpop
      simp only [drainTrail, Grouper.drain, hpop]
      have hone : Along P [] (Grouper.deliverTimer { g with state := g.state.cancel a } a) :=
        ⟨List.forall_mem_nil _, fun _ => h.timed hg⟩
      exact hone.andThen fun g' hg' => (ih hg').cons hg'

theorem collectAll (h : Persistent P) (hg : P g) (ws : List Window) :
    Along P (collectTrail ws g) (.ok (ws.foldl Grouper.collect g)) := by
  induction ws generalizing g with
  | nil => exact along_ok hg
  | cons w rest ih => exact (ih (h.collected w hg)).cons (h.collected w hg)

theorem advance (h : Persistent P) (hg : P g) (target : Int) :
    Along P (g.advanceTrail target) (g.advance target) := by
  unfold advanceTrail Grouper.advance
  split
  · exact along_ok hg
  · have hmoved := h.moved target hg
    exact ((h.drain hmoved _).cons hmoved).andThen fun g' hg' => h.collectAll hg' g'.expired

theorem follow (h : Persistent P) (hg : P g) (mode : InputWatermark) (timestamp : Int) :
    Along P (g.followTrail mode timestamp) (g.follow mode timestamp) := by
  cases mode with
  | elementTime => exact h.advance hg timestamp
  | heldUntilEnd => exact along_ok hg

theorem take (h : Persistent P) (hg : P g) (mode : InputWatermark) (e : Envelope ν) :
    Along P (g.takeTrail mode e) (g.take mode e) := by
  rw [take_eq]
  refine (h.follow hg mode e.timestamp).andThen fun g₁ hg₁ => ?_
  refine along_series (fun _ => P) (fun _ hg => hg) (fun w _ g hg => ?_) hg₁
  have hplace := h.place hg e.timestamp e.value w
  exact ⟨hplace, hplace.left⟩

/-- What the operations keep holds of every state that a run passes. -/
theorem trail (h : Persistent P) (mode : InputWatermark) (elements : List (Envelope ν)) :
    ∀ g ∈ Grouper.trail s mode elements, P g := by
  have hseries : Along P (seriesTrail (takeTrail mode) (Grouper.take mode) ({} : Grouper s ν)
      (inTimeOrder elements)) ((inTimeOrder elements).foldlM (Grouper.take mode) {}) := by
    refine along_series (fun _ => P) (fun _ hg => hg) (fun e _ g hg => ?_) h.start
    have htake := h.take hg mode e
    exact ⟨htake, htake.left⟩
  exact ((hseries.cons h.start).andThen fun g hg => h.advance hg maxTime).passed

end Persistent

end Grouper

end EventTime
