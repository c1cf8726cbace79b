import EventTime.Proofs.Trigger.Preorder
import EventTime.Proofs.Trigger.Sheets

/-!
# Footprints

An action is confined to some nodes of a window if it leaves every other entry alone, and if its
answer and the entries it leaves at those nodes depend on nothing but the entries there, and on
what it may look at in the windows being merged. Actions one after another are confined where each
of them is, so the reaction of a subtree is confined to the subtree.
-/

namespace EventTime

namespace Sheet

/-- Two sheets hold the same for the nodes from `lo` to `hi`. -/
def SameOn (lo hi : Nat) (sh sh' : Sheet) : Prop :=
  ∀ n, lo ≤ n → n < hi → sh.entry n = sh'.entry n

theorem SameOn.mono {lo hi lo' hi' : Nat} {sh sh' : Sheet} (h : SameOn lo' hi' sh sh')
    (hlo : lo' ≤ lo) (hhi : hi ≤ hi') : SameOn lo hi sh sh' :=
  fun n hn hn' => h n (hlo.trans hn) (hn'.trans_le hhi)

/-- A change works entry by entry, and only on those of the nodes from `lo` to `hi`. -/
structure Within (lo hi : Nat) (f : Sheet → Sheet) : Prop where
  outside : ∀ sh n, n < lo ∨ hi ≤ n → (f sh).entry n = sh.entry n
  inside : ∀ sh sh' n, sh.entry n = sh'.entry n → (f sh).entry n = (f sh').entry n

theorem within_finish (node : Nat) : Within node (node + 1) (finish node) where
  outside sh n hn := by
    rw [entry_finish, if_neg (by omega)]
  inside sh sh' n h := by
    rw [entry_finish, entry_finish, h]

theorem within_count (node value : Nat) : Within node (node + 1) (count node value) where
  outside sh n hn := by
    rw [entry_count, if_neg (by omega)]
  inside sh sh' n h := by
    rw [entry_count, entry_count, h]

theorem within_schedule (timestamp : Int) (node : Nat) :
    Within node (node + 1) (schedule timestamp node) where
  outside sh n hn := by
    rw [entry_schedule, if_neg (by omega)]
  inside sh sh' n h := by
    rw [entry_schedule, entry_schedule, h]

theorem within_cancel (timestamp : Int) (node : Nat) :
    Within node (node + 1) (cancel timestamp node) where
  outside sh n hn := by
    rw [entry_cancel, if_neg (by omega)]
  inside sh sh' n h := by
    rw [entry_cancel, entry_cancel, h]

theorem within_clear (lo hi : Nat) : Within lo hi (clear lo hi) where
  outside sh n hn := by
    rw [entry_clear, if_neg (by omega)]
  inside sh sh' n h := by
    rw [entry_clear, entry_clear, h]

theorem cancel_blank (timestamp : Int) (node : Nat) : cancel timestamp node blank = blank := by
  simp [cancel, blank]

end Sheet

namespace Sheets

variable {ρ τ : Type} {w : Window} {lo hi lo' hi' node : Nat}

/-- The windows being merged hold the same for the nodes from `lo` to `hi`. -/
def SameMerging (lo hi : Nat) (m m' : WindowMap Sheet) : Prop :=
  List.Forall₂ (fun p q => p.2.SameOn lo hi q.2) m.entries m'.entries

/-- Whatever the windows being merged hold. -/
def AnyMerging (_ _ : WindowMap Sheet) : Prop := True

theorem SameMerging.mono {m m' : WindowMap Sheet} (h : SameMerging lo' hi' m m') (hlo : lo' ≤ lo)
    (hhi : hi ≤ hi') : SameMerging lo hi m m' :=
  List.Forall₂.imp (fun _ _ hsame => hsame.mono hlo hhi) h

/-- An action changes nothing but the entries of the nodes from `lo` to `hi` in the window `w`.
Its answer and those entries depend on nothing but what they were before and, as far as `alike`
distinguishes them, on the windows being merged. -/
structure Confined (w : Window) (lo hi : Nat) (alike : WindowMap Sheet → WindowMap Sheet → Prop)
    (a : Attempt Sheets ρ) : Prop where
  windows : ∀ σ v, v ≠ w → (a.begin σ).2.windows.find? v = σ.windows.find? v
  merging : ∀ σ, (a.begin σ).2.merging = σ.merging
  entries : ∀ σ n, n < lo ∨ hi ≤ n →
    ((a.begin σ).2.sheetAt w).entry n = (σ.sheetAt w).entry n
  determined : ∀ σ σ', (σ.sheetAt w).SameOn lo hi (σ'.sheetAt w) →
    alike σ.merging σ'.merging → (a.begin σ).1 = (a.begin σ').1 ∧
      ((a.begin σ).2.sheetAt w).SameOn lo hi ((a.begin σ').2.sheetAt w)

variable {alike alike' : WindowMap Sheet → WindowMap Sheet → Prop} {a : Attempt Sheets ρ}
  {f : ρ → Attempt Sheets τ}

theorem Confined.mono (h : Confined w lo hi alike a) (hlo : lo' ≤ lo) (hhi : hi ≤ hi')
    (halike : ∀ m m', alike' m m' → alike m m') : Confined w lo' hi' alike' a where
  windows := h.windows
  merging := h.merging
  entries σ n hn := h.entries σ n (by omega)
  determined σ σ' hsame hmerging := by
    obtain ⟨hanswer, hafter⟩ := h.determined σ σ' (hsame.mono hlo hhi) (halike _ _ hmerging)
    refine ⟨hanswer, fun n hn hn' => ?_⟩
    -- an entry between the two ranges is as before, and it was the same before
    by_cases hin : lo ≤ n ∧ n < hi
    · exact hafter n hin.1 hin.2
    · rw [h.entries σ n (by omega), h.entries σ' n (by omega), hsame n hn hn']

theorem Confined.widen (h : Confined w lo hi AnyMerging a) (hlo : lo' ≤ lo) (hhi : hi ≤ hi') :
    Confined w lo' hi' AnyMerging a :=
  h.mono hlo hhi fun _ _ hany => hany

theorem Confined.widen_merging (h : Confined w lo hi (SameMerging lo hi) a) (hlo : lo' ≤ lo)
    (hhi : hi ≤ hi') : Confined w lo' hi' (SameMerging lo' hi') a :=
  h.mono hlo hhi fun _ _ hsame => hsame.mono hlo hhi

theorem Confined.bind (ha : Confined w lo hi alike a) (hf : ∀ x, Confined w lo hi alike (f x)) :
    Confined w lo hi alike (a >>= f) where
  windows σ v hv := Attempt.view_bind (fun s => s.windows.find? v) (ha.windows · v hv)
    (fun x => ((hf x).windows · v hv)) σ
  merging := Attempt.view_bind Sheets.merging ha.merging fun x => (hf x).merging
  entries σ n hn := Attempt.view_bind (fun s => (s.sheetAt w).entry n) (ha.entries · n hn)
    (fun x => ((hf x).entries · n hn)) σ
  determined σ σ' hsame halike := by
    obtain ⟨hanswer, hafter⟩ := ha.determined σ σ' hsame halike
    have hmerging := ha.merging σ
    have hmerging' := ha.merging σ'
    rcases h : a.begin σ with ⟨x, σ₁⟩
    rcases h' : a.begin σ' with ⟨x', σ₁'⟩
    rw [h] at hanswer hafter hmerging
    rw [h'] at hanswer hafter hmerging'
    obtain rfl : x = x' := hanswer
    cases x with
    | error e =>
      rw [Attempt.begin_bind_error h, Attempt.begin_bind_error h']
      exact ⟨rfl, hafter⟩
    | ok x =>
      rw [Attempt.begin_bind h, Attempt.begin_bind h']
      refine (hf x).determined σ₁ σ₁' hafter ?_
      rwa [show σ₁.merging = σ.merging from hmerging,
        show σ₁'.merging = σ'.merging from hmerging']

theorem confined_quiet {x : Except Fault ρ} (ha : ∀ σ, a.begin σ = (x, σ)) :
    Confined w lo hi alike a where
  windows σ v _ := by rw [ha]
  merging σ := by rw [ha]
  entries σ n _ := by rw [ha]
  determined σ σ' hsame _ := by
    rw [ha, ha]
    exact ⟨rfl, hsame⟩

theorem confined_pure (x : ρ) : Confined w lo hi alike (pure x : Attempt Sheets ρ) :=
  confined_quiet fun _ => rfl

theorem confined_throw (fault : Fault) :
    Confined w lo hi alike (throw fault : Attempt Sheets ρ) :=
  confined_quiet fun _ => rfl

theorem confined_lift (x : Except Fault ρ) :
    Confined w lo hi alike (liftM x : Attempt Sheets ρ) :=
  confined_quiet fun _ => rfl

/-! ### Reading and writing -/

theorem confined_read {g : Sheet → ρ} (hg : ∀ sh sh', Sheet.SameOn lo hi sh sh' → g sh = g sh') :
    Confined w lo hi alike (read w g) where
  windows _ _ _ := rfl
  merging _ := rfl
  entries _ _ _ := rfl
  determined _ _ hsame _ := ⟨congrArg Except.ok (hg _ _ hsame), hsame⟩

theorem begin_write (g : Sheet → Sheet) (σ : Sheets) : (write w g).begin σ =
    (.ok (), { σ with windows := σ.windows.insert w (g (σ.sheetAt w)) }) := rfl

theorem begin_amend (g : Sheet → Sheet) (σ : Sheets) : (amend w g).begin σ =
    (.ok (), { σ with windows := σ.windows.modify w g }) := rfl

theorem sheetAt_write (w : Window) (g : Sheet → Sheet) (σ : Sheets) :
    ((write w g).begin σ).2.sheetAt w = g (σ.sheetAt w) := by
  simp [begin_write, sheetAt]

/-- To amend a sheet that is not there does what it does to a blank one: nothing. -/
theorem sheetAt_amend {g : Sheet → Sheet} (hblank : g .blank = .blank) (σ : Sheets) :
    ((amend w g).begin σ).2.sheetAt w = g (σ.sheetAt w) := by
  rw [begin_amend, sheetAt, sheetAt, WindowMap.find?_modify]
  cases σ.windows.find? w <;> simp [hblank]

theorem confined_write {g : Sheet → Sheet} (hg : Sheet.Within lo hi g) :
    Confined w lo hi alike (write w g) where
  windows σ v hv := WindowMap.find?_insert_of_ne (Ne.symm hv) ..
  merging _ := rfl
  entries σ n hn := by rw [sheetAt_write, hg.outside _ n hn]
  determined σ σ' hsame _ := by
    refine ⟨rfl, fun n hn hn' => ?_⟩
    rw [sheetAt_write, sheetAt_write, hg.inside _ _ n (hsame n hn hn')]

theorem confined_amend {g : Sheet → Sheet} (hg : Sheet.Within lo hi g)
    (hblank : g .blank = .blank) : Confined w lo hi alike (amend w g) where
  windows σ v hv := by
    rw [begin_amend, WindowMap.find?_modify, if_neg (Ne.symm hv)]
  merging _ := rfl
  entries σ n hn := by rw [sheetAt_amend hblank, hg.outside _ n hn]
  determined σ σ' hsame _ := by
    refine ⟨rfl, fun n hn hn' => ?_⟩
    rw [sheetAt_amend hblank, sheetAt_amend hblank, hg.inside _ _ n (hsame n hn hn')]

theorem confined_perform (change : Write) :
    Confined w node (node + 1) alike (perform w node change) := by
  cases change with
  | setCounter value => exact confined_write (Sheet.within_count node value)
  | setTimer timestamp => exact confined_write (Sheet.within_schedule timestamp node)
  | deleteTimer timestamp =>
    exact confined_amend (Sheet.within_cancel timestamp node) (Sheet.cancel_blank timestamp node)

theorem confined_performAll (changes : List Write) :
    Confined w node (node + 1) alike (performAll w node changes) := by
  induction changes with
  | nil => exact confined_pure ()
  | cons change rest ih => exact (confined_perform change).bind fun _ => ih

theorem confined_react (reaction : Cell → Reaction ρ) :
    Confined w node (node + 1) alike (react w node reaction) := by
  have hcounter : Confined w node (node + 1) alike (read w (·.counter node)) :=
    confined_read fun sh sh' hsame =>
      congrArg Sheet.Entry.counter (hsame node le_rfl node.lt_succ_self)
  exact hcounter.bind fun _ => (confined_performAll _).bind fun _ => confined_lift _

theorem map_eq_of_forall₂ {α β : Type} {R : α → α → Prop} {g : α → β} {l l' : List α}
    (h : List.Forall₂ R l l') (hg : ∀ x y, R x y → g x = g y) : l.map g = l'.map g := by
  induction h with
  | nil => rfl
  | cons hxy _ ih => rw [List.map_cons, List.map_cons, hg _ _ hxy, ih]

theorem confined_mergingCells :
    Confined w node (node + 1) (SameMerging node (node + 1)) (mergingCells node) where
  windows _ _ _ := rfl
  merging _ := rfl
  entries _ _ _ := rfl
  determined σ σ' hsame hmerging := by
    refine ⟨congrArg Except.ok (map_eq_of_forall₂ hmerging fun p q hpq => ?_), hsame⟩
    exact congrArg (Cell.mk · []) (congrArg Sheet.Entry.counter (hpq node le_rfl node.lt_succ_self))

theorem confined_settle (hlo : lo ≤ node) (hhi : node < hi) (finishes : Bool) :
    Confined w lo hi alike (settle w node finishes) := by
  rw [settle]
  split
  · exact (confined_write (Sheet.within_finish node)).mono hlo hhi fun _ _ h => h
  · exact confined_pure ()

theorem confined_reset : Confined w lo hi alike (reset w lo hi) :=
  confined_write (Sheet.within_clear lo hi)

theorem confined_restart (finishes : Bool) : Confined w lo hi alike (restart w lo hi finishes) := by
  rw [restart]
  split
  · exact confined_reset
  · exact confined_pure ()

theorem Confined.offer {visit : Attempt Sheets Outcome} (h : Confined w node hi alike visit)
    (hhi : node < hi) : Confined w node hi alike (offer w node visit) := by
  have hread : Confined w node hi alike (read w (·.finished node)) :=
    confined_read fun sh sh' hsame => congrArg Sheet.Entry.finished (hsame node le_rfl hhi)
  refine hread.bind fun finished => ?_
  split
  · exact confined_pure _
  · exact h.bind fun o => (confined_settle le_rfl hhi _).bind fun _ => confined_pure o

theorem confined_finishedMerging (hlo : lo ≤ node) (hhi : node < hi) :
    Confined w lo hi (SameMerging lo hi) (finishedMerging node) where
  windows _ _ _ := rfl
  merging _ := rfl
  entries _ _ _ := rfl
  determined σ σ' hsame hmerging := by
    have hfinished := map_eq_of_forall₂ (g := (·.2.finished node)) hmerging fun p q hpq =>
      congrArg Sheet.Entry.finished (hpq node hlo hhi)
    refine ⟨congrArg Except.ok ?_, hsame⟩
    simpa using congrArg (List.any · id) hfinished

theorem Confined.merge {visit : Attempt Sheets MergeOutcome}
    (h : Confined w node hi (SameMerging node hi) visit) (hhi : node < hi) :
    Confined w node hi (SameMerging node hi) (merge w node visit) := by
  refine (confined_finishedMerging le_rfl hhi).bind fun finished => ?_
  split
  · exact (confined_settle le_rfl hhi true).bind fun _ => confined_pure _
  · exact h.bind fun o => (confined_settle le_rfl hhi _).bind fun _ => confined_pure o

end Sheets

namespace Trigger

open Sheets

/-! ### Reacting on sheets -/

/-- The first node whose entry the reaction of a tree may change: a leaf changes its own entry, a
composite only those of its children. -/
def firstEntry : Trigger → (node : Nat) → Nat
  | .leaf _, node => node
  | .afterFirst _, node => node + 1
  | .repeatedly _, node => node + 1
  | .orFinally _ _, node => node + 1

theorem le_firstEntry (t : Trigger) (node : Nat) : node ≤ t.firstEntry node := by
  cases t <;> simp [firstEntry]

section Invoking

variable {w : Window} {t : Trigger} {node : Nat}

theorem confined_offer {visit : Attempt Sheets Outcome}
    (h : Confined w (t.firstEntry node) (node + t.size) AnyMerging visit) :
    Confined w node (node + t.size) AnyMerging (Sheets.offer w node visit) :=
  (h.widen (t.le_firstEntry node) le_rfl).offer (Nat.lt_add_of_pos_right t.size_pos)

theorem confined_merge {visit : Attempt Sheets MergeOutcome}
    (h : Confined w (t.firstEntry node) (node + t.size)
      (SameMerging (t.firstEntry node) (node + t.size)) visit) :
    Confined w node (node + t.size) (SameMerging node (node + t.size))
      (Sheets.merge w node visit) :=
  (h.widen_merging (t.le_firstEntry node) le_rfl).merge (Nat.lt_add_of_pos_right t.size_pos)

end Invoking

/-- What a child does, and what its outcome makes of it, stays in the child's subtree. -/
theorem confined_repeated {w : Window} {lo hi : Nat} {ρ : Type}
    {alike : WindowMap Sheet → WindowMap Sheet → Prop} {a : Attempt Sheets ρ}
    (h : Confined w lo hi alike a) (finishes : ρ → Bool) (answer : ρ → ρ) :
    Confined w lo hi alike (do
      let o ← a
      restart w lo hi (finishes o)
      return answer o) :=
  h.bind fun o => (confined_restart (finishes o)).bind fun _ => confined_pure (answer o)

mutual

theorem confined_visitElement (w : Window) (e : ElementEvent) : (t : Trigger) → (node : Nat) →
    Confined w (t.firstEntry node) (node + t.size) AnyMerging (visitElement .own w e t node)
  | .leaf l, node => confined_react (l.onElement node e)
  | .afterFirst ts, node => by
    rw [visitElement, size, firstEntry]
    exact (confined_visitElementAmong w e ts (node + 1)).widen (by omega) (by omega)
  | .repeatedly t, node => by
    have ht := confined_offer (confined_visitElement w e t (node + 1))
    rw [visitElement, size, firstEntry]
    exact (confined_repeated ht _ _).widen (by omega) (by omega)
  | .orFinally a b, node => by
    have ha := confined_offer (confined_visitElement w e a (node + 1))
    have hb := confined_offer (confined_visitElement w e b (node + 1 + a.size))
    rw [visitElement, size, firstEntry]
    refine (ha.widen (by omega) (by omega)).bind fun oa => ?_
    exact (hb.widen (by omega) (by omega)).bind fun ob => confined_pure _

theorem confined_visitElementAmong (w : Window) (e : ElementEvent) :
    (ts : List Trigger) → (node : Nat) →
    Confined w node (node + sizeAll ts) AnyMerging (visitElementAmong .own w e ts node)
  | [], node => confined_pure _
  | t :: ts, node => by
    have ht := confined_offer (confined_visitElement w e t node)
    have hts := confined_visitElementAmong w e ts (node + t.size)
    rw [visitElementAmong, sizeAll]
    refine (ht.widen le_rfl (by omega)).bind fun o => ?_
    split
    · exact confined_pure _
    · exact hts.widen (by omega) (by omega)

end

mutual

theorem confined_visitMerge (w : Window) (e : Merge) : (t : Trigger) → (node : Nat) →
    Confined w (t.firstEntry node) (node + t.size)
      (SameMerging (t.firstEntry node) (node + t.size)) (visitMerge .own w e t node)
  | .leaf l, node => confined_mergingCells.bind fun olds => confined_react (l.onMerge node e olds)
  | .afterFirst ts, node => by
    rw [visitMerge, size, firstEntry]
    exact (confined_visitMergeAmong w e ts (node + 1) false).widen_merging (by omega) (by omega)
  | .repeatedly t, node => by
    have ht := confined_merge (confined_visitMerge w e t (node + 1))
    rw [visitMerge, size, firstEntry]
    exact (confined_repeated ht _ _).widen_merging (by omega) (by omega)
  | .orFinally a b, node => by
    have ha := confined_merge (confined_visitMerge w e a (node + 1))
    have hb := confined_merge (confined_visitMerge w e b (node + 1 + a.size))
    rw [visitMerge, size, firstEntry]
    refine (ha.widen_merging (by omega) (by omega)).bind fun oa => ?_
    exact (hb.widen_merging (by omega) (by omega)).bind fun ob => confined_pure _

theorem confined_visitMergeAmong (w : Window) (e : Merge) :
    (ts : List Trigger) → (node : Nat) → (fired : Bool) →
    Confined w node (node + sizeAll ts) (SameMerging node (node + sizeAll ts))
      (visitMergeAmong .own w e ts node fired)
  | [], node, fired => confined_pure _
  | t :: ts, node, fired => by
    have ht := confined_merge (confined_visitMerge w e t node)
    rw [visitMergeAmong, sizeAll]
    refine (ht.widen_merging le_rfl (by omega)).bind fun o => ?_
    split
    · exact confined_pure _
    · exact (confined_visitMergeAmong w e ts (node + t.size) (fired || o.fires)).widen_merging
        (by omega) (by omega)

end

mutual

theorem confined_visitTimer (w : Window) (e : TimerEvent) : (t : Trigger) → (node : Nat) →
    Confined w (t.firstEntry node) (node + t.size) AnyMerging (visitTimer .own w e t node)
  | .leaf l, node => confined_react (l.onTimer node e)
  | .afterFirst ts, node => by
    rw [visitTimer, size, firstEntry]
    split
    · exact confined_throw _
    · exact (confined_visitTimerAmong w e node ts (node + 1)).widen (by omega) (by omega)
  | .repeatedly t, node => by
    have ht := confined_offer (confined_visitTimer w e t (node + 1))
    rw [visitTimer, size, firstEntry]
    split
    · exact confined_throw _
    · exact (confined_repeated ht _ _).widen (by omega) (by omega)
  | .orFinally a b, node => by
    have ha := confined_offer (confined_visitTimer w e a (node + 1))
    have hb := confined_offer (confined_visitTimer w e b (node + 1 + a.size))
    rw [visitTimer, size, firstEntry]
    split
    · exact confined_throw _
    · split
      · exact ha.widen (by omega) (by omega)
      · split
        · exact (hb.widen (by omega) (by omega)).bind fun o => confined_pure _
        · exact confined_throw _

theorem confined_visitTimerAmong (w : Window) (e : TimerEvent) (parent : Nat) :
    (ts : List Trigger) → (node : Nat) →
    Confined w node (node + sizeAll ts) AnyMerging (visitTimerAmong .own w e parent ts node)
  | [], node => confined_throw _
  | t :: ts, node => by
    have ht := confined_offer (confined_visitTimer w e t node)
    have hts := confined_visitTimerAmong w e parent ts (node + t.size)
    rw [visitTimerAmong, sizeAll]
    split
    · exact (ht.widen le_rfl (by omega)).bind fun o => confined_pure _
    · exact hts.widen (by omega) (by omega)

end

theorem confined_invokeElement (w : Window) (e : ElementEvent) (t : Trigger) (node : Nat) :
    Confined w node (node + t.size) AnyMerging (t.invokeElement w e node) :=
  confined_offer (confined_visitElement w e t node)

theorem confined_invokeMerge (w : Window) (e : Merge) (t : Trigger) (node : Nat) :
    Confined w node (node + t.size) (SameMerging node (node + t.size)) (t.invokeMerge w e node) :=
  confined_merge (confined_visitMerge w e t node)

theorem confined_invokeTimer (w : Window) (e : TimerEvent) (t : Trigger) (node : Nat) :
    Confined w node (node + t.size) AnyMerging (t.invokeTimer w e node) :=
  confined_offer (confined_visitTimer w e t node)

end Trigger

end EventTime
