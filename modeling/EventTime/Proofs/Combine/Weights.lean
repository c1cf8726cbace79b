import EventTime.Proofs.Combine.HotKey

/-!
# The weight of a key in a window

Rows carry weights; a row counts in a window as often as `mult` says for the windows that it lists.
What the shards of a key weigh, bag by bag, adds up to what its elements weigh, as long as the bags
that an element counts in cover it the right number of times.
-/

namespace EventTime

variable {κ ν M : Type} [DecidableEq κ] [AddCommMonoid M] {mult : Window → List Window → ℕ}

/-- The weights of the rows of a key in a window, added up. -/
def weightAt (mult : Window → List Window → ℕ) (key : κ) (w : Window)
    (rows : List (Envelope (κ × M))) : M :=
  (rows.map fun e => if e.value.1 = key then mult w e.windows • e.value.2 else 0).sum

def weighing (e : Envelope (κ × ν)) : Envelope (κ × Multiset ν) :=
  e.withValue (e.value.1, {e.value.2})

/-- An element of a shard that weighs its value, under the key alone. -/
def weighingHot (e : Envelope ((κ × UInt32) × ν)) : Envelope (κ × Multiset ν) :=
  e.withValue (e.value.1.1, {e.value.2})

@[simp] theorem weightAt_nil (key : κ) (w : Window) :
    weightAt mult key w ([] : List (Envelope (κ × M))) = 0 := rfl

theorem weightAt_cons (key : κ) (w : Window) (e : Envelope (κ × M))
    (rows : List (Envelope (κ × M))) :
    weightAt mult key w (e :: rows) =
      (if e.value.1 = key then mult w e.windows • e.value.2 else 0) + weightAt mult key w rows := by
  rw [weightAt, List.map_cons, List.sum_cons]
  rfl

theorem weightAt_append (key : κ) (w : Window) (front back : List (Envelope (κ × M))) :
    weightAt mult key w (front ++ back) =
      weightAt mult key w front + weightAt mult key w back := by
  rw [weightAt, List.map_append, List.sum_append]
  rfl

theorem weightAt_perm (key : κ) (w : Window) {rows rows' : List (Envelope (κ × M))}
    (h : rows'.Perm rows) : weightAt mult key w rows' = weightAt mult key w rows :=
  (h.map _).sum_eq

theorem sum_weighing (key : κ) (w : Window) (rows : List (Envelope (κ × Multiset ν))) :
    (weightAt mult key w (rows.map weighing)).sum = weightAt mult key w rows := by
  induction rows with
  | nil => rfl
  | cons e rest ih =>
    rw [List.map_cons, weightAt_cons, weightAt_cons, Multiset.sum_add, ih]
    congr 1
    show Multiset.sum (if e.value.1 = key then mult w e.windows • {e.value.2} else 0) = _
    by_cases h : e.value.1 = key
    · rw [if_pos h, if_pos h, Multiset.sum_nsmul, Multiset.sum_singleton]
    · rw [if_neg h, if_neg h, Multiset.sum_zero]

theorem rel_nsmul_singleton {β γ : Type} {r : β → γ → Prop} {a : β} {b : γ} (h : r a b) (n : ℕ) :
    Multiset.Rel r (n • {a}) (n • {b}) := by
  induction n with
  | zero =>
    rw [zero_nsmul, zero_nsmul]
    exact .zero
  | succ n ih =>
    rw [succ_nsmul, succ_nsmul]
    exact ih.add (.cons h .zero)

/-- An encoding weighs what it denotes, at least if its windows count. -/
def WeighsIf {α : Type} (counts : List Window → Prop) (coder : Coder (InputOrAccum ν α))
    (R : κ → α → Multiset ν → Prop) (e : Envelope (κ × Bytes)) (d : Envelope (κ × Multiset ν)) :
    Prop :=
  ∃ bytes, e = d.withValue (d.value.1, bytes) ∧
    (counts d.windows → Denotes coder R d.value.1 bytes d.value.2)

theorem rel_weighing_of {α : Type} {coder : Coder (InputOrAccum ν α)}
    {R : κ → α → Multiset ν → Prop} {rows : List (Envelope (κ × Bytes))}
    {weights : List (Envelope (κ × Multiset ν))} (key : κ) (w : Window)
    (h : List.Forall₂ (WeighsIf (mult w · ≠ 0) coder R) rows weights) :
    Multiset.Rel (Denotes coder R key) (weightAt mult key w (rows.map weighing))
      (weightAt mult key w (weights.map weighing)) := by
  induction h with
  | nil => exact .zero
  | @cons e d rows weights hed _ ih =>
    obtain ⟨bytes, rfl, hbytes⟩ := hed
    rw [List.map_cons, List.map_cons, weightAt_cons, weightAt_cons]
    refine Multiset.Rel.add ?_ ih
    show Multiset.Rel _ (if d.value.1 = key then mult w d.windows • {bytes} else 0)
      (if d.value.1 = key then mult w d.windows • {d.value.2} else 0)
    by_cases hkey : d.value.1 = key
    · rw [if_pos hkey, if_pos hkey]
      by_cases hcount : mult w d.windows = 0
      · rw [hcount, zero_nsmul, zero_nsmul]
        exact .zero
      · exact rel_nsmul_singleton (hkey ▸ hbytes hcount) _
    · rw [if_neg hkey, if_neg hkey]
      exact .zero

theorem rel_weighing {α : Type} {coder : Coder (InputOrAccum ν α)}
    {R : κ → α → Multiset ν → Prop} {rows : List (Envelope (κ × Bytes))}
    {weights : List (Envelope (κ × Multiset ν))}
    (h : List.Forall₂ (Weighs coder R) rows weights) (key : κ) (w : Window) :
    Multiset.Rel (Denotes coder R key) (weightAt mult key w (rows.map weighing))
      (weightAt mult key w (weights.map weighing)) :=
  rel_weighing_of key w <| h.imp fun _ _ ⟨bytes, he, hdenotes⟩ => ⟨bytes, he, fun _ => hdenotes⟩

theorem weightAt_tagged (key : κ) (w : Window) {rows : List (Envelope (κ × ν))}
    {tagged : List (Envelope (Shard κ ν))} (h : List.Forall₂ Tagged rows tagged) :
    weightAt mult key w (rows.map weighing) =
      weightAt mult key w ((hotRows tagged).map weighingHot) +
        weightAt mult key w (tagged.flatMap coldWeight) := by
  induction h with
  | nil => simp [hotRows]
  | @cons e e' rows tagged htag _ ih =>
    rw [List.map_cons, weightAt_cons, ih, hotRows_cons, List.flatMap_cons, List.map_append,
      weightAt_append, weightAt_append]
    rcases htag with rfl | ⟨shard, rfl⟩
    · show _ = (0 + _) + (weightAt mult key w [weighing e] + _)
      rw [weightAt_cons, weightAt_nil, add_zero, zero_add]
      exact add_left_comm _ _ _
    · show _ = (weightAt mult key w [weighing e] + _) + (0 + _)
      rw [weightAt_cons, weightAt_nil, add_zero, zero_add]
      exact (add_assoc _ _ _).symm

theorem sum_bags_one (key : κ) (w : Window) (bags : List (Bag (κ × UInt32) ν))
    (d : Envelope ((κ × UInt32) × ν))
    (hcover : d.value.1.1 = key → (bags.map fun c => if d.value.1 = c.key then
      mult w [c.window] * mult c.window d.windows else 0).sum = mult w d.windows) :
    (bags.map fun c => if c.key.1 = key then mult w [c.window] •
      (if d.value.1 = c.key then mult c.window d.windows • ({d.value.2} : Multiset ν) else 0)
      else 0).sum =
    if d.value.1.1 = key then mult w d.windows • ({d.value.2} : Multiset ν) else 0 := by
  by_cases hkey : d.value.1.1 = key
  · rw [if_pos hkey, ← hcover hkey, ← sum_map_nsmul]
    congr 1
    refine List.map_congr_left fun c _ => ?_
    by_cases hc : d.value.1 = c.key
    · rw [if_pos hc, if_pos hc, if_pos (hc ▸ hkey), mul_nsmul']
    · rw [if_neg hc, if_neg hc, nsmul_zero, zero_nsmul, ite_self]
  · rw [if_neg hkey]
    refine List.sum_eq_zero fun x hx => ?_
    obtain ⟨c, -, rfl⟩ := List.mem_map.mp hx
    by_cases hc : d.value.1 = c.key
    · rw [if_neg (hc ▸ hkey)]
    · rw [if_neg hc, nsmul_zero, ite_self]

theorem sum_bags (key : κ) (w : Window) (bags : List (Bag (κ × UInt32) ν))
    (hot : List (Envelope ((κ × UInt32) × ν)))
    (hcover : ∀ d ∈ hot, d.value.1.1 = key → (bags.map fun c => if d.value.1 = c.key then
      mult w [c.window] * mult c.window d.windows else 0).sum = mult w d.windows) :
    (bags.map fun c => if c.key.1 = key then
      mult w [c.window] • weightAt mult c.key c.window (hot.map weighing) else 0).sum =
    weightAt mult key w (hot.map weighingHot) := by
  induction hot with
  | nil => simp
  | cons d rest ih =>
    have hrest := ih fun e he => hcover e (List.mem_cons_of_mem _ he)
    have hone := sum_bags_one key w bags d (hcover d (List.mem_cons_self ..))
    rw [List.map_cons, List.map_cons, weightAt_cons, ← hrest]
    show _ = (if d.value.1.1 = key then mult w d.windows • ({d.value.2} : Multiset ν) else 0) + _
    rw [← hone, ← List.sum_map_add]
    congr 1
    refine List.map_congr_left fun c _ => ?_
    rw [weightAt_cons]
    by_cases hc : c.key.1 = key
    · rw [if_pos hc, if_pos hc, if_pos hc, nsmul_add]
      rfl
    · rw [if_neg hc, if_neg hc, if_neg hc, add_zero]

theorem weightAt_hotWeights (info : PaneInfo) (key : κ) (w : Window)
    {bags : List (Bag (κ × UInt32) ν)} {hot : List (Envelope ((κ × UInt32) × ν))}
    (hvalues : ∀ c ∈ bags, c.values = weightAt mult c.key c.window (hot.map weighing))
    (hcover : ∀ d ∈ hot, d.value.1.1 = key → (bags.map fun c => if d.value.1 = c.key then
      mult w [c.window] * mult c.window d.windows else 0).sum = mult w d.windows) :
    weightAt mult key w (hotWeights info bags) = weightAt mult key w (hot.map weighingHot) := by
  rw [← sum_bags key w bags hot hcover, weightAt, hotWeights, List.map_map]
  congr 1
  refine List.map_congr_left fun c hc => ?_
  show (if c.key.1 = key then mult w [c.window] • c.values else 0) = _
  rw [hvalues c hc]

theorem weightAt_spread {info : PaneInfo} (key : κ) (w : Window) {bags : List (Bag (κ × UInt32) ν)}
    {rows : List (Envelope (κ × ν))} {tagged : List (Envelope (Shard κ ν))}
    (htagged : List.Forall₂ Tagged rows tagged)
    (hvalues : ∀ c ∈ bags,
      c.values = weightAt mult c.key c.window ((hotRows tagged).map weighing))
    (hcover : ∀ d ∈ hotRows tagged, d.value.1.1 = key → (bags.map fun c =>
      if d.value.1 = c.key then mult w [c.window] * mult c.window d.windows else 0).sum =
        mult w d.windows) :
    weightAt mult key w (hotWeights info bags ++ tagged.flatMap coldWeight) =
      weightAt mult key w (rows.map weighing) := by
  rw [weightAt_tagged key w htagged, weightAt_append, weightAt_hotWeights info key w hvalues hcover]

end EventTime
