import EventTime.Proofs.Window.Clearing
import EventTime.Proofs.WindowMap

/-!
# Live windows that do not overlap

The merges that sessions ask for are performed one after the other, and a window is followed from
each merge into the next. When all of them have been performed no two live windows overlap, whatever
was live before. A window that was live then lies in the one into which it was followed, and so it
overlaps no other live one.
-/

namespace EventTime

theorem Window.Proper.ordered {w : Window} (h : w.Proper) : w.Ordered := by
  cases w with
  | global => exact h.elim
  | interval a b => exact Int.le_of_lt h.2.1

variable {live live' : Window → Prop}

/-- Live windows that end no earlier than they start, and of which no two overlap. -/
structure Disjointed (live : Window → Prop) : Prop where
  ordered : ∀ w, live w → w.Ordered
  apart : ∀ u v, live u → live v → u ≠ v → u.intersects v = false

/-- A live window covers another window, and is the only live one that overlaps it. -/
structure Hosts (live : Window → Prop) (w : Window) (assigned : Window) : Prop where
  lives : live w
  covers : w.Covers assigned
  alone : ∀ u, live u → (u.intersects assigned = true ↔ u = w)

theorem Disjointed.mono (h : Disjointed live) (hsub : ∀ w, live' w → live w) : Disjointed live' where
  ordered w hw := h.ordered w (hsub w hw)
  apart u v hu hv := h.apart u v (hsub u hu) (hsub v hv)

theorem Disjointed.congr (h : Disjointed live) (heq : ∀ w, live' w ↔ live w) : Disjointed live' :=
  h.mono fun w => (heq w).mp

theorem disjointed_empty : Disjointed fun _ => False := ⟨nofun, nofun⟩

theorem Disjointed.hosts (h : Disjointed live) {w assigned : Window} (hw : live w)
    (hcovers : w.Covers assigned) (hproper : assigned.Proper) : Hosts live w assigned where
  lives := hw
  covers := hcovers
  alone u hu := by
    constructor
    · intro hmeets
      by_contra hne
      rw [Window.intersects_comm] at hmeets
      have hoverlap := hcovers.meets hmeets
      rw [h.apart w u hw hu (Ne.symm hne)] at hoverlap
      cases hoverlap
    · rintro rfl
      exact hcovers.meets (Window.intersects_self hproper)

theorem Hosts.congr {w assigned : Window} (h : Hosts live w assigned)
    (heq : ∀ w, live' w ↔ live w) : Hosts live' w assigned :=
  ⟨(heq w).mpr h.lives, h.covers, fun u hu => h.alone u ((heq u).mp hu)⟩

theorem WindowSet.mem_keys_merged {active : WindowSet} {m : Merge} {w : Window} :
    w ∈ (WindowSet.add (m.olds.foldl WindowMap.erase active) m.into).keys ↔
      m.leaves (· ∈ active.keys) w := by
  rw [mem_keys_add, WindowMap.mem_keys, Merge.leaves, WindowMap.mem_keys, WindowMap.find?_foldl_erase]
  split <;> simp_all

/-- The windows that live after some merges. -/
def performed : List Merge → (Window → Prop) → Window → Prop
  | [], live => live
  | m :: ms, live => performed ms (m.leaves live)

/-- The window in which a window ends up. -/
def routed : List Merge → Window → Window
  | [], w => w
  | m :: ms, w => routed ms (if w ∈ m.olds then m.into else w)

theorem performed_congr (ms : List Merge) (heq : ∀ w, live' w ↔ live w) (w : Window) :
    performed ms live' w ↔ performed ms live w := by
  rw [show live' = live from funext fun w => propext (heq w)]

theorem MergePlan.performed_ordered {ms : List Merge} (hplan : MergePlan live ms)
    (hordered : ∀ w, live w → w.Ordered) : ∀ w, performed ms live w → w.Ordered := by
  induction ms generalizing live with
  | nil => exact hordered
  | cons m ms ih =>
    refine ih hplan.tail fun w hw => ?_
    rcases hw with rfl | ⟨hw, -⟩
    · exact hplan.ordered m (List.mem_cons_self ..)
    · exact hordered w hw

theorem Clearing.performed_apart {ms : List Merge} (hclearing : Clearing live ms) :
    ∀ u v, performed ms live u → performed ms live v → u ≠ v → u.intersects v = false := by
  induction ms generalizing live with
  | nil => exact fun u v hu hv => hclearing.rest u v hu hv (List.forall_mem_nil _)
  | cons m ms ih => exact ih hclearing.tail

/-- A live window is followed into a live one that it lies in. -/
theorem Clearing.performed_routed {ms : List Merge} (hclearing : Clearing live ms) {w : Window}
    (hw : live w) : performed ms live (routed ms w) ∧ (routed ms w).Covers w := by
  induction ms generalizing live w with
  | nil => exact ⟨hw, Window.covers_refl w⟩
  | cons m ms ih =>
    simp only [performed, routed]
    split
    · rename_i hmem
      have hinside := (hclearing.gathers m (List.mem_cons_self ..)).inside w hmem
      obtain ⟨hlive, hcovers⟩ := ih hclearing.tail (.inl rfl)
      exact ⟨hlive, hcovers.trans hinside.covers⟩
    · rename_i hmem
      exact ih hclearing.tail (.inr ⟨hw, hmem⟩)

section

variable {α : Type} {active : WindowMap α} {assigned : Window}

theorem overlapping_disjointed (hordered : ∀ w ∈ active.keys, w.Ordered) :
    Disjointed (performed (WindowFn.overlapping active.keys) (· ∈ active.keys)) where
  ordered := (WindowFn.overlapping_plan active.keys_sorted hordered).performed_ordered hordered
  apart := (WindowFn.overlapping_clearing active.keys_sorted hordered).performed_apart

/-- After the merges a live window that covers some time is in exactly one live window. -/
theorem overlapping_hosts (hordered : ∀ w ∈ active.keys, w.Ordered)
    (hassigned : assigned ∈ active.keys) (hproper : assigned.Proper) :
    Hosts (performed (WindowFn.overlapping active.keys) (· ∈ active.keys))
      (routed (WindowFn.overlapping active.keys) assigned) assigned := by
  have hclearing := WindowFn.overlapping_clearing active.keys_sorted hordered
  obtain ⟨hlive, hcovers⟩ := hclearing.performed_routed hassigned
  exact (overlapping_disjointed hordered).hosts hlive hcovers hproper

end

end EventTime
