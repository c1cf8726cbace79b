import Mathlib.Algebra.GroupWithZero.Nat
import Mathlib.Algebra.Order.BigOperators.Group.List
import Mathlib.Data.Multiset.OrderedMonoid
import EventTime.Envelope

/-!
# Which values a window lists

An element lists a window as often as the window stands among its windows. The values of a key in a
window are those listed by the elements under that key, in order.
-/

namespace EventTime

variable {κ ν : Type}

/-- The values of the elements that list a window, one for each listing. -/
def listed (w : Window) (elements : List (Envelope ν)) : List ν :=
  elements.flatMap fun e => List.replicate (e.windows.count w) e.value

/-- The envelopes under a key, with the key taken off their values. -/
def rowsOf [DecidableEq κ] (key : κ) (rows : List (Envelope (κ × ν))) : List (Envelope ν) :=
  (rows.filter (·.value.1 = key)).map fun e => e.withValue e.value.2

def valuesAt [DecidableEq κ] (key : κ) (w : Window) (rows : List (Envelope (κ × ν))) : List ν :=
  listed w (rowsOf key rows)

theorem listed_append (w : Window) (front back : List (Envelope ν)) :
    listed w (front ++ back) = listed w front ++ listed w back := List.flatMap_append

theorem listed_ne_nil_iff {w : Window} {elements : List (Envelope ν)} :
    listed w elements ≠ [] ↔ ∃ e ∈ elements, w ∈ e.windows := by
  simp only [listed, ne_eq, List.flatMap_eq_nil_iff, List.replicate_eq_nil_iff, List.count_eq_zero,
    not_forall, not_not, exists_prop]

/-- The elements so far of every window, with one more for `w`. -/
def addSeen (seen : Window → List ν) (w : Window) (v : ν) : Window → List ν :=
  fun u => if u = w then seen u ++ [v] else seen u

@[simp] theorem addSeen_self (seen : Window → List ν) (w : Window) (v : ν) :
    addSeen seen w v w = seen w ++ [v] := if_pos rfl

theorem addSeen_of_ne {seen : Window → List ν} {w u : Window} {v : ν} (h : u ≠ w) :
    addSeen seen w v u = seen u := if_neg h

/-- The elements so far of every window, with one more for each listing of it. -/
def addListings (seen : Window → List ν) (windows : List Window) (v : ν) : Window → List ν :=
  fun u => seen u ++ List.replicate (windows.count u) v

theorem addListings_nil (seen : Window → List ν) (v : ν) : addListings seen [] v = seen := by
  funext u
  simp [addListings]

theorem addListings_concat (seen : Window → List ν) (windows : List Window) (w : Window) (v : ν) :
    addListings seen (windows ++ [w]) v = addSeen (addListings seen windows v) w v := by
  funext u
  by_cases h : u = w
  · subst h
    simp [addListings, List.replicate_succ']
  · have h' : ¬w = u := Ne.symm h
    simp [addListings, addSeen_of_ne h, h']

theorem listed_concat (elements : List (Envelope ν)) (e : Envelope ν) :
    (fun w => listed w (elements ++ [e])) =
      addListings (fun w => listed w elements) e.windows e.value := by
  funext w
  rw [listed_append]
  simp [listed, addListings]

section

variable [DecidableEq κ]

theorem rowsOf_append (key : κ) (front back : List (Envelope (κ × ν))) :
    rowsOf key (front ++ back) = rowsOf key front ++ rowsOf key back := by
  simp only [rowsOf, List.filter_append, List.map_append]

theorem valuesAt_append (key : κ) (w : Window) (front back : List (Envelope (κ × ν))) :
    valuesAt key w (front ++ back) = valuesAt key w front ++ valuesAt key w back := by
  rw [valuesAt, rowsOf_append, listed_append]
  rfl

theorem valuesAt_singleton (key : κ) (w : Window) (e : Envelope (κ × ν)) :
    valuesAt key w [e] =
      if e.value.1 = key then List.replicate (e.windows.count w) e.value.2 else [] := by
  by_cases h : e.value.1 = key <;>
    simp [valuesAt, rowsOf, listed, h, Envelope.withValue]

theorem mem_rowsOf {key : κ} {rows : List (Envelope (κ × ν))} {d : Envelope ν} :
    d ∈ rowsOf key rows ↔ ∃ e ∈ rows, e.value.1 = key ∧ e.withValue e.value.2 = d := by
  simp only [rowsOf, List.mem_map, List.mem_filter, decide_eq_true_eq, and_assoc]

theorem valuesAt_ne_nil_iff {key : κ} {w : Window} {rows : List (Envelope (κ × ν))} :
    valuesAt key w rows ≠ [] ↔ ∃ e ∈ rows, e.value.1 = key ∧ w ∈ e.windows := by
  rw [valuesAt, listed_ne_nil_iff]
  constructor
  · rintro ⟨d, hd, hw⟩
    obtain ⟨e, he, hkey, rfl⟩ := mem_rowsOf.mp hd
    exact ⟨e, he, hkey, hw⟩
  · rintro ⟨e, he, hkey, hw⟩
    exact ⟨_, mem_rowsOf.mpr ⟨e, he, hkey, rfl⟩, hw⟩

theorem mem_valuesAt {w : Window} {rows : List (Envelope (κ × ν))} {e : Envelope (κ × ν)}
    (he : e ∈ rows) (hw : w ∈ e.windows) : e.value.2 ∈ valuesAt e.value.1 w rows := by
  refine List.mem_flatMap.mpr ⟨e.withValue e.value.2, mem_rowsOf.mpr ⟨e, he, rfl, rfl⟩, ?_⟩
  exact List.mem_replicate.mpr ⟨fun hzero => List.count_eq_zero.mp hzero hw, rfl⟩

theorem exists_of_mem_valuesAt {key : κ} {w : Window} {rows : List (Envelope (κ × ν))} {x : ν}
    (h : x ∈ valuesAt key w rows) : ∃ e ∈ rows, e.value.2 = x := by
  obtain ⟨d, hd, hx⟩ := List.mem_flatMap.mp h
  obtain ⟨e, he, -, rfl⟩ := mem_rowsOf.mp hd
  exact ⟨e, he, (List.eq_of_mem_replicate hx).symm⟩

theorem valuesAt_flatten (key : κ) (w : Window) (bundles : List (List (Envelope (κ × ν)))) :
    valuesAt key w bundles.flatten = (bundles.map (valuesAt key w)).flatten := by
  induction bundles with
  | nil => rfl
  | cons rows rest ih =>
    rw [List.flatten_cons, valuesAt_append, ih]
    rfl

end

theorem coe_flatMap {β γ : Type} (l : List β) (f : β → List γ) :
    (l.flatMap f : Multiset γ) = (l.map fun b => (f b : Multiset γ)).sum := by
  induction l with
  | nil => rfl
  | cons b rest ih => rw [List.flatMap_cons, ← Multiset.coe_add, ih, List.map_cons, List.sum_cons]

theorem flatMap_unique {β γ : Type} {l : List β} (hl : l.Nodup) (f : β → List γ) {b : β}
    (hb : b ∈ l) (h : ∀ c ∈ l, c ≠ b → f c = []) : l.flatMap f = f b := by
  obtain ⟨front, back, rfl⟩ := List.append_of_mem hb
  have hout := (List.nodup_cons.mp (List.nodup_middle.mp hl)).1
  have hnil : ∀ c ∈ front ++ back, f c = [] := fun c hc =>
    h c (by simpa [or_left_comm] using .inr (List.mem_append.mp hc)) fun e => hout (e ▸ hc)
  have hfront : front.flatMap f = [] :=
    List.flatMap_eq_nil_iff.mpr fun c hc => hnil c (List.mem_append_left _ hc)
  have hback : back.flatMap f = [] :=
    List.flatMap_eq_nil_iff.mpr fun c hc => hnil c (List.mem_append_right _ hc)
  rw [List.flatMap_append, List.flatMap_cons, hfront, hback, List.nil_append, List.append_nil]

theorem sum_map_nsmul {β M : Type} [AddCommMonoid M] (l : List β) (n : β → ℕ) (x : M) :
    (l.map fun c => n c • x).sum = (l.map n).sum • x := by
  induction l with
  | nil => simp
  | cons c rest ih => rw [List.map_cons, List.sum_cons, ih, List.map_cons, List.sum_cons, add_nsmul]

theorem sum_map_unique {β γ : Type} {l : List β} {φ : β → γ} (hl : (l.map φ).Nodup) (n : β → ℕ)
    {b : β} (hb : b ∈ l) (h : ∀ c ∈ l, φ c ≠ φ b → n c = 0) : (l.map n).sum = n b := by
  induction l with
  | nil => cases hb
  | cons c rest ih =>
    obtain ⟨hc, hrest⟩ := List.nodup_cons.mp hl
    rw [List.map_cons, List.sum_cons]
    rcases List.mem_cons.mp hb with rfl | hb
    · have hzero : (rest.map n).sum = 0 := by
        refine List.sum_eq_zero fun x hx => ?_
        obtain ⟨d, hd, rfl⟩ := List.mem_map.mp hx
        exact h d (List.mem_cons_of_mem _ hd) fun e => hc (e ▸ List.mem_map_of_mem hd)
      rw [hzero, add_zero]
    · have hne : φ c ≠ φ b := fun e => hc (e ▸ List.mem_map_of_mem hb)
      rw [h c (List.mem_cons_self ..) hne, zero_add]
      exact ih hrest hb fun d hd => h d (List.mem_cons_of_mem _ hd)

end EventTime
