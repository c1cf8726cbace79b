import Mathlib.Data.List.Nodup
import EventTime.Proofs.Trigger.Finished

/-!
# Numbers in pre-order

A node of a tree is the end of a path, which tells at each node which child to go to. The paths in
pre-order number the nodes, and the table of a tree holds under each number the row of the node at
the end of that path. The numbers of a subtree follow one another, so the subtrees of the children
of a node fill the range between its number and its end, and a range tells the way to a node.
-/

namespace EventTime

namespace Trigger

theorem size_lt_of_mem_children {t c : Trigger} (h : c ∈ t.children) : c.size < t.size := by
  have hle (ts : List Trigger) (h : c ∈ ts) : c.size ≤ sizeAll ts := by
    induction ts with
    | nil => cases h
    | cons t ts ih =>
      simp only [sizeAll]
      rcases List.mem_cons.mp h with rfl | h
      · omega
      · have hrest := ih h
        omega
  have hc := hle t.children h
  have hsize := t.size_eq
  omega

/-- What holds of a tree if it holds of its children holds of every tree. -/
theorem induction_on_children {P : Trigger → Prop}
    (h : ∀ t : Trigger, (∀ c ∈ t.children, P c) → P t) (t : Trigger) : P t :=
  h t fun c _ => induction_on_children h c
termination_by t.size
decreasing_by exact size_lt_of_mem_children ‹_›

theorem arenaFrom_eq (t : Trigger) (node : Nat) :
    t.arenaFrom node = row t node :: arenaAmong (node + 1) t.children := by
  cases t <;> simp [arenaFrom, children, arenaAmong]

theorem sizeAll_append (front back : List Trigger) :
    sizeAll (front ++ back) = sizeAll front + sizeAll back := by
  induction front with
  | nil => simp [sizeAll]
  | cons t ts ih => simp only [List.cons_append, sizeAll, ih, Nat.add_assoc]

theorem arenaAmong_append (node : Nat) (front back : List Trigger) :
    arenaAmong node (front ++ back) =
      arenaAmong node front ++ arenaAmong (node + sizeAll front) back := by
  induction front generalizing node with
  | nil => simp [arenaAmong, sizeAll]
  | cons t ts ih =>
    simp only [List.cons_append, arenaAmong, sizeAll, ih, List.append_assoc, Nat.add_assoc]

theorem modify_middle {α : Type} (f : α → α) (before : List α) (a : α) (after : List α) :
    (before ++ a :: after).modify before.length f = before ++ f a :: after := by
  induction before with
  | nil => rfl
  | cons b before ih => exact congrArg (b :: ·) ih

theorem enter_eq (rows : Array Node) (t : Trigger) :
    enter rows t =
      close (enterAmong rows.size (rows.push (opened t rows.size)) t.children) rows.size := by
  cases t <;> rfl

/-- Entering trees under a parent whose row is in the table. -/
theorem toList_enterAmong {ts : List Trigger}
    (hts : ∀ t ∈ ts, ∀ rows, (enter rows t).toList = rows.toList ++ t.arenaFrom rows.size)
    {rows : Array Node} {before after : List Node} {r : Node}
    (hrows : rows.toList = before ++ r :: after) :
    (enterAmong before.length rows ts).toList = before ++
      { r with children := r.children ++ starts rows.size ts } :: after ++
        arenaAmong rows.size ts := by
  induction ts generalizing rows r after with
  | nil => simp [enterAmong, starts, arenaAmong, hrows]
  | cons t ts ih =>
    have henter := hts t (List.mem_cons_self ..) rows
    have hadopt : (adopt (enter rows t) before.length rows.size).toList =
        before ++ { r with children := r.children ++ [rows.size] } ::
          (after ++ t.arenaFrom rows.size) := by
      rw [adopt, Array.toList_modify, henter, hrows, List.append_assoc, List.cons_append,
        modify_middle]
    have hsize : (adopt (enter rows t) before.length rows.size).size = rows.size + t.size := by
      rw [← Array.length_toList, adopt, Array.toList_modify, List.length_modify, henter]
      simp [length_arenaFrom]
    rw [enterAmong, ih (fun u hu => hts u (List.mem_cons_of_mem _ hu)) hadopt, hsize]
    simp [starts, arenaAmong]

/-- The root is entered first, and its row is complete once its children have been entered. -/
theorem toList_enter (rows : Array Node) (t : Trigger) :
    (enter rows t).toList = rows.toList ++ t.arenaFrom rows.size := by
  induction t using induction_on_children generalizing rows with
  | h t ih =>
    have hpushed : (rows.push (opened t rows.size)).toList =
        rows.toList ++ opened t rows.size :: [] := Array.toList_push ..
    have hchildren := toList_enterAmong (fun c hc rows => ih c hc rows) hpushed
    rw [Array.length_toList, Array.size_push] at hchildren
    have hsize : (enterAmong rows.size (rows.push (opened t rows.size)) t.children).size =
        rows.size + t.size := by
      rw [← Array.length_toList, hchildren, t.size_eq]
      simp [length_arenaAmong]
      omega
    rw [enter_eq, close, Array.toList_modify, hchildren, hsize, arenaFrom_eq]
    have hmiddle := modify_middle (fun r : Node => { r with stop := rows.size + t.size })
      rows.toList
    rw [Array.length_toList] at hmiddle
    simp [hmiddle, row, opened]

theorem toList_build (t : Trigger) : t.build.toList = t.arena :=
  (toList_enter #[] t).trans (List.nil_append _)

/-! ### Paths -/

/-- The subtree at the end of a path. -/
def at? : Trigger → List Nat → Option Trigger
  | t, [] => some t
  | t, k :: path => (t.children[k]?).bind fun c => at? c path

mutual

/-- The paths to the nodes of a tree in pre-order: a node comes before the nodes below it, and
these come child by child. -/
def paths : Trigger → List (List Nat)
  | .leaf _ => [[]]
  | .afterFirst ts => [] :: pathsAmong 0 ts
  | .repeatedly t => [] :: (paths t).map (0 :: ·)
  | .orFinally a b => [] :: ((paths a).map (0 :: ·) ++ (paths b).map (1 :: ·))

/-- The paths to the nodes of several trees, of which the first is child number `k`. -/
def pathsAmong : (k : Nat) → List Trigger → List (List Nat)
  | _, [] => []
  | k, t :: ts => (paths t).map (k :: ·) ++ pathsAmong (k + 1) ts

end

theorem paths_eq (t : Trigger) : t.paths = [] :: pathsAmong 0 t.children := by
  cases t <;> simp [paths, children, pathsAmong]

theorem pathsAmong_append (k : Nat) (front back : List Trigger) :
    pathsAmong k (front ++ back) = pathsAmong k front ++ pathsAmong (k + front.length) back := by
  induction front generalizing k with
  | nil => simp [pathsAmong]
  | cons t ts ih =>
    simp only [List.cons_append, pathsAmong, ih, List.append_assoc, List.length_cons,
      Nat.add_assoc, Nat.add_comm 1]

theorem length_pathsAmong {ts : List Trigger} (hts : ∀ t ∈ ts, t.paths.length = t.size)
    (k : Nat) : (pathsAmong k ts).length = sizeAll ts := by
  induction ts generalizing k with
  | nil => rfl
  | cons t ts ih =>
    rw [pathsAmong, List.length_append, List.length_map, hts t (List.mem_cons_self ..),
      ih fun u hu => hts u (List.mem_cons_of_mem _ hu), sizeAll]

theorem length_paths (t : Trigger) : t.paths.length = t.size := by
  induction t using induction_on_children with
  | h t ih => rw [paths_eq, List.length_cons, length_pathsAmong ih, size_eq, Nat.add_comm]

theorem at?_append (t : Trigger) (path rest : List Nat) :
    t.at? (path ++ rest) = (t.at? path).bind (·.at? rest) := by
  induction path generalizing t with
  | nil => rfl
  | cons k path ih =>
    rw [List.cons_append, at?, at?]
    cases t.children[k]? with
    | none => rfl
    | some c => exact ih c

theorem mem_pathsAmong {ts : List Trigger} {k : Nat} {path : List Nat} :
    path ∈ pathsAmong k ts ↔
      ∃ i c rest, ts[i]? = some c ∧ path = (k + i) :: rest ∧ rest ∈ c.paths := by
  induction ts generalizing k with
  | nil => simp [pathsAmong]
  | cons t ts ih =>
    rw [pathsAmong, List.mem_append, List.mem_map, ih]
    constructor
    · rintro (⟨rest, hrest, rfl⟩ | ⟨i, c, rest, hc, rfl, hrest⟩)
      · exact ⟨0, t, rest, rfl, rfl, hrest⟩
      · exact ⟨i + 1, c, rest, hc, by rw [Nat.add_assoc, Nat.add_comm 1], hrest⟩
    · rintro ⟨i, c, rest, hc, rfl, hrest⟩
      cases i with
      | zero =>
        obtain rfl := Option.some.inj hc
        exact .inl ⟨rest, hrest, rfl⟩
      | succ i => exact .inr ⟨i, c, rest, hc, by rw [Nat.add_assoc, Nat.add_comm 1], hrest⟩

/-- The paths listed are those at whose end there is a node. -/
theorem mem_paths (t : Trigger) (path : List Nat) :
    path ∈ t.paths ↔ ∃ sub, t.at? path = some sub := by
  induction t using induction_on_children generalizing path with
  | h t ih =>
    rw [paths_eq, List.mem_cons, mem_pathsAmong]
    cases path with
    | nil => simp [at?]
    | cons k path =>
      simp only [at?, Option.bind_eq_some_iff, Nat.zero_add, List.cons.injEq, reduceCtorEq,
        false_or]
      constructor
      · rintro ⟨_, c, _, hc, ⟨rfl, rfl⟩, hrest⟩
        obtain ⟨sub, hsub⟩ := (ih c (List.mem_of_getElem? hc) path).mp hrest
        exact ⟨sub, c, hc, hsub⟩
      · rintro ⟨sub, c, hc, hsub⟩
        have hpath := (ih c (List.mem_of_getElem? hc) path).mpr ⟨sub, hsub⟩
        exact ⟨k, c, path, hc, ⟨rfl, rfl⟩, hpath⟩

theorem nodup_pathsAmong {ts : List Trigger} (hts : ∀ t ∈ ts, t.paths.Nodup) (k : Nat) :
    (pathsAmong k ts).Nodup := by
  induction ts generalizing k with
  | nil => exact List.nodup_nil
  | cons t ts ih =>
    have hrest := ih (fun u hu => hts u (List.mem_cons_of_mem _ hu)) (k + 1)
    refine List.nodup_append.mpr ⟨?_, hrest, ?_⟩
    · exact (hts t (List.mem_cons_self ..)).map fun p q h => (List.cons.inj h).2
    · rintro p hp q hq rfl
      obtain ⟨rest, -, rfl⟩ := List.mem_map.mp hp
      obtain ⟨i, c, rest', -, heq, -⟩ := mem_pathsAmong.mp hq
      have hk := (List.cons.inj heq).1
      omega

theorem nodup_paths (t : Trigger) : t.paths.Nodup := by
  induction t using induction_on_children with
  | h t ih =>
    rw [paths_eq, List.nodup_cons]
    refine ⟨fun hnil => ?_, nodup_pathsAmong ih 0⟩
    obtain ⟨i, c, rest, -, heq, -⟩ := mem_pathsAmong.mp hnil
    cases heq

/-- The subtree at the end of a path takes up consecutive rows of the table and consecutive paths,
in both from number `i` on. -/
structure Block (t : Trigger) (path : List Nat) (sub : Trigger) (i : Nat) : Prop where
  rows : ∀ node, ∃ before after,
    t.arenaFrom node = before ++ (sub.arenaFrom (node + i) ++ after) ∧ before.length = i
  paths : ∃ before after,
    t.paths = before ++ (sub.paths.map (path ++ ·) ++ after) ∧ before.length = i

theorem block_root (t : Trigger) : t.Block [] t 0 where
  rows node := ⟨[], [], by simp, rfl⟩
  paths := ⟨[], [], by simp, rfl⟩

theorem block_child {t c : Trigger} {front back : List Trigger}
    (h : t.children = front ++ c :: back) : t.Block [front.length] c (1 + sizeAll front) where
  rows node := by
    refine ⟨row t node :: arenaAmong (node + 1) front,
      arenaAmong (node + 1 + sizeAll front + c.size) back, ?_, ?_⟩
    · rw [arenaFrom_eq, h, arenaAmong_append, arenaAmong, ← Nat.add_assoc, List.cons_append]
    · rw [List.length_cons, length_arenaAmong, Nat.add_comm]
  paths := by
    refine ⟨[] :: pathsAmong 0 front, pathsAmong (front.length + 1) back, ?_, ?_⟩
    · rw [paths_eq, h, pathsAmong_append, pathsAmong, Nat.zero_add, List.cons_append]
      rfl
    · rw [List.length_cons, length_pathsAmong fun t _ => t.length_paths, Nat.add_comm]

theorem Block.trans {t sub sub' : Trigger} {path path' : List Nat} {i j : Nat}
    (h : t.Block path sub i) (h' : sub.Block path' sub' j) :
    t.Block (path ++ path') sub' (i + j) where
  rows node := by
    obtain ⟨before, after, hrows, hlength⟩ := h.rows node
    obtain ⟨before', after', hrows', hlength'⟩ := h'.rows (node + i)
    refine ⟨before ++ before', after' ++ after, ?_, ?_⟩
    · rw [hrows, hrows', Nat.add_assoc]
      simp only [List.append_assoc]
    · rw [List.length_append, hlength, hlength']
  paths := by
    obtain ⟨before, after, hpaths, hlength⟩ := h.paths
    obtain ⟨before', after', hpaths', hlength'⟩ := h'.paths
    refine ⟨before ++ before'.map (path ++ ·), after'.map (path ++ ·) ++ after, ?_, ?_⟩
    · rw [hpaths, hpaths']
      simp only [List.map_append, List.map_map, List.append_assoc, Function.comp_def]
    · rw [List.length_append, List.length_map, hlength, hlength']

theorem block_of_child {t c : Trigger} {k : Nat} (hc : t.children[k]? = some c) :
    t.Block [k] c (1 + sizeAll (t.children.take k)) := by
  obtain ⟨hk, rfl⟩ := List.getElem?_eq_some_iff.mp hc
  have hsplit : t.children = t.children.take k ++ t.children[k] :: t.children.drop (k + 1) := by
    simp
  have hchild := block_child hsplit
  rwa [List.length_take_of_le (Nat.le_of_lt hk)] at hchild

theorem exists_block {t sub : Trigger} {path : List Nat} (h : t.at? path = some sub) :
    ∃ i, t.Block path sub i := by
  induction path generalizing t with
  | nil =>
    obtain rfl := Option.some.inj h
    exact ⟨0, t.block_root⟩
  | cons k path ih =>
    obtain ⟨c, hc, hsub⟩ := Option.bind_eq_some_iff.mp h
    obtain ⟨j, hblock⟩ := ih hsub
    exact ⟨_, (block_of_child hc).trans hblock⟩

/-! ### Reading a node by its path -/

section Reading

variable {t sub : Trigger} {path : List Nat} {i : Nat}

theorem getElem?_starts (node : Nat) (ts : List Trigger) (k : Nat) :
    (starts node ts)[k]? = (ts[k]?).map fun _ => node + sizeAll (ts.take k) := by
  induction ts generalizing node k with
  | nil => rfl
  | cons t ts ih =>
    cases k with
    | zero => simp [starts, sizeAll]
    | succ k => simp [starts, sizeAll, ih, Nat.add_assoc]

theorem Block.row_at (h : t.Block path sub i) : t.arena[i]? = some (sub.row i) := by
  obtain ⟨before, after, hrows, hlength⟩ := h.rows 0
  rw [arena, hrows, ← hlength, List.getElem?_append_right (Nat.le_refl _), Nat.sub_self,
    arenaFrom_eq, Nat.zero_add]
  rfl

theorem Block.path_at (h : t.Block path sub i) {j : Nat} {rest : List Nat}
    (hrest : sub.paths[j]? = some rest) : t.paths[i + j]? = some (path ++ rest) := by
  obtain ⟨before, after, hpaths, hlength⟩ := h.paths
  rw [hpaths, ← hlength, List.getElem?_append_right (Nat.le_add_right ..),
    Nat.add_sub_cancel_left]
  have hshare : (sub.paths.map (path ++ ·))[j]? = some (path ++ rest) := by
    rw [List.getElem?_map, hrest]
    rfl
  rw [List.getElem?_append_left (List.getElem?_eq_some_iff.mp hshare).1, hshare]

theorem paths_zero (t : Trigger) : t.paths[0]? = some [] := by
  rw [paths_eq]
  rfl

/-- A path has one number only. -/
theorem number_unique {j : Nat} (hi : t.paths[i]? = some path) (hj : t.paths[j]? = some path) :
    i = j :=
  (List.getElem?_inj (List.getElem?_eq_some_iff.mp hi).1 t.nodup_paths).mp (hi.trans hj.symm)

theorem block_of_path (h : t.paths[i]? = some path) : ∃ sub, t.at? path = some sub ∧
    t.Block path sub i := by
  obtain ⟨sub, hsub⟩ := (t.mem_paths path).mp (List.mem_of_getElem? h)
  obtain ⟨j, hblock⟩ := exists_block hsub
  have hj := hblock.path_at sub.paths_zero
  rw [List.append_nil, Nat.add_zero] at hj
  obtain rfl := number_unique h hj
  exact ⟨sub, hsub, hblock⟩

/-- A subtree takes up the numbers of the paths that lead through its root. -/
theorem Block.range (h : t.Block path sub i) (hsub : t.at? path = some sub) (j : Nat) :
    (i ≤ j ∧ j < i + sub.size) ↔ ∃ rest, t.paths[j]? = some (path ++ rest) := by
  constructor
  · rintro ⟨hij, hj⟩
    obtain ⟨m, rfl⟩ := Nat.exists_eq_add_of_le hij
    have hm : m < sub.paths.length := by
      rw [length_paths]
      omega
    exact ⟨_, h.path_at (List.getElem?_eq_getElem hm)⟩
  · rintro ⟨rest, hrest⟩
    obtain ⟨below, hbelow⟩ := (t.mem_paths _).mp (List.mem_of_getElem? hrest)
    rw [at?_append, hsub] at hbelow
    obtain ⟨m, hm⟩ := List.getElem?_of_mem ((sub.mem_paths rest).mpr ⟨below, hbelow⟩)
    obtain rfl := number_unique hrest (h.path_at hm)
    have hlt := (List.getElem?_eq_some_iff.mp hm).1
    rw [length_paths] at hlt
    omega

theorem Block.child (h : t.Block path sub i) {k : Nat} {c : Trigger}
    (hc : sub.children[k]? = some c) :
    t.Block (path ++ [k]) c (i + 1 + sizeAll (sub.children.take k)) := by
  rw [Nat.add_assoc]
  exact h.trans (block_of_child hc)

theorem at?_child (hsub : t.at? path = some sub) {k : Nat} {c : Trigger}
    (hc : sub.children[k]? = some c) : t.at? (path ++ [k]) = some c := by
  simp [at?_append, hsub, at?, hc]

theorem mem_children_row {c : Nat} : c ∈ (sub.row i).children ↔
    ∃ k u, sub.children[k]? = some u ∧ c = i + 1 + sizeAll (sub.children.take k) := by
  rw [row, List.mem_iff_getElem?]
  simp only [getElem?_starts, Option.map_eq_some_iff]
  exact exists_congr fun k => exists_congr fun u => and_congr_right fun _ => eq_comm

end Reading

/-- The subtrees that begin at some numbers fill the range from `start` to `stop`, in this order
and without a gap. -/
def Adjoining (rows : List Node) : (start : Nat) → List Nat → (stop : Nat) → Prop
  | start, [], stop => start = stop
  | start, c :: rest, stop =>
    c = start ∧ ∃ r, rows[c]? = some r ∧ Adjoining rows r.stop rest stop

theorem Block.adjoining {t sub : Trigger} {path : List Nat} {i : Nat} (h : t.Block path sub i)
    (front back : List Trigger) (hchildren : sub.children = front ++ back) :
    Adjoining t.arena (i + 1 + sizeAll front) (starts (i + 1 + sizeAll front) back)
      (i + sub.size) := by
  induction back generalizing front with
  | nil =>
    have hsize := sub.size_eq
    rw [hchildren, List.append_nil] at hsize
    simp only [starts, Adjoining]
    omega
  | cons c back ih =>
    have hc := h.trans (block_child hchildren)
    rw [← Nat.add_assoc] at hc
    have hrest := ih (front ++ [c]) (by simp [hchildren])
    simp only [sizeAll_append, sizeAll, Nat.add_zero, ← Nat.add_assoc] at hrest
    exact ⟨rfl, _, hc.row_at, hrest⟩

/-- What row `r`, under number `i`, tells of the node of `t` at the end of `path`. -/
structure Mirrors (t : Trigger) (i : Nat) (path : List Nat) (r : Node) : Prop where
  node : ∃ sub, t.at? path = some sub ∧ r.name = sub.name ∧
    r.children.length = sub.children.length
  /-- The range holds the node and all nodes below it, and no others. -/
  range : ∀ j, (i ≤ j ∧ j < r.stop) ↔ ∃ rest, t.paths[j]? = some (path ++ rest)
  child : ∀ (k c : Nat), r.children[k]? = some c → t.paths[c]? = some (path ++ [k])
  /-- The subtrees of the children fill the range below the node. -/
  adjoining : Adjoining t.arena (i + 1) r.children r.stop
  /-- To a node below, the next step is the child on the way. -/
  step_below : ∀ (k : Nat) (rest : List Nat) (d : Nat), t.paths[d]? = some (path ++ k :: rest) →
    ∃ c, r.children[k]? = some c ∧ t.nextStep i d = some c
  /-- To the node itself and to a node elsewhere there is no next step. -/
  step_elsewhere : ∀ (d : Nat) (way : List Nat), t.paths[d]? = some way →
    (¬ ∃ k rest, way = path ++ k :: rest) → t.nextStep i d = none

section Mirrors

variable {t sub : Trigger} {path : List Nat} {i : Nat}

/-- Whether the range of the node `child` holds the node `d`. -/
def rangeHolds (t : Trigger) (d child : Nat) : Bool :=
  child ≤ d && (t.arena[child]?).any fun r => d < r.stop

theorem Block.nextStep_eq (h : t.Block path sub i) (d : Nat) :
    t.nextStep i d = (sub.row i).children.find? (t.rangeHolds d) := by
  rw [nextStep, h.row_at]
  rfl

theorem Block.rangeHolds_iff (h : t.Block path sub i) {k : Nat} {u : Trigger}
    (hu : sub.children[k]? = some u) (d : Nat) :
    t.rangeHolds d (i + 1 + sizeAll (sub.children.take k)) = true ↔
      Leads u (i + 1 + sizeAll (sub.children.take k)) d := by
  rw [rangeHolds, (h.child hu).row_at]
  simp [Trigger.row, Leads]

/-- The range of a child holds a node if and only if the way to that node goes through the
child. -/
theorem Block.child_range (h : t.Block path sub i) (hsub : t.at? path = some sub) {k : Nat}
    {u : Trigger} (hu : sub.children[k]? = some u) (d : Nat) :
    t.rangeHolds d (i + 1 + sizeAll (sub.children.take k)) = true ↔
      ∃ rest, t.paths[d]? = some (path ++ k :: rest) := by
  rw [h.rangeHolds_iff hu, Leads, (h.child hu).range (at?_child hsub hu)]
  simp

theorem Block.step_below (h : t.Block path sub i) (hsub : t.at? path = some sub) {k : Nat}
    {rest : List Nat} {d : Nat} (hd : t.paths[d]? = some (path ++ k :: rest)) :
    ∃ c, (sub.row i).children[k]? = some c ∧ t.nextStep i d = some c := by
  obtain ⟨below, hbelow⟩ := (t.mem_paths _).mp (List.mem_of_getElem? hd)
  rw [at?_append, hsub, Option.bind_some, at?] at hbelow
  obtain ⟨u, hu, -⟩ := Option.bind_eq_some_iff.mp hbelow
  have hk : (sub.row i).children[k]? = some (i + 1 + sizeAll (sub.children.take k)) := by
    rw [Trigger.row, getElem?_starts, hu]
    rfl
  refine ⟨_, hk, ?_⟩
  rw [h.nextStep_eq]
  have hsome := List.find?_isSome.mpr
    ⟨_, List.mem_of_getElem? hk, (h.child_range hsub hu d).mpr ⟨rest, hd⟩⟩
  obtain ⟨c, hc⟩ := Option.isSome_iff_exists.mp hsome
  obtain ⟨k', u', hu', rfl⟩ := mem_children_row.mp (List.mem_of_find?_eq_some hc)
  obtain ⟨rest', hd'⟩ := (h.child_range hsub hu' d).mp (List.find?_some hc)
  -- both children lie on the way to `d`, so they are one
  have hway := List.append_cancel_left (Option.some.inj (hd.symm.trans hd'))
  obtain rfl := (List.cons.inj hway).1
  exact hc

theorem Block.step_elsewhere (h : t.Block path sub i) (hsub : t.at? path = some sub) {d : Nat}
    {way : List Nat} (hd : t.paths[d]? = some way) (hway : ¬ ∃ k rest, way = path ++ k :: rest) :
    t.nextStep i d = none := by
  rw [h.nextStep_eq, List.find?_eq_none]
  intro c hc hin
  obtain ⟨k, u, hu, rfl⟩ := mem_children_row.mp hc
  obtain ⟨rest, hrest⟩ := (h.child_range hsub hu d).mp hin
  exact hway ⟨k, rest, Option.some.inj (hd.symm.trans hrest)⟩

theorem Block.mirrors (h : t.Block path sub i) (hsub : t.at? path = some sub) :
    t.Mirrors i path (sub.row i) where
  node := by
    refine ⟨sub, hsub, rfl, ?_⟩
    have hlength (node : Nat) (ts : List Trigger) : (starts node ts).length = ts.length := by
      induction ts generalizing node with
      | nil => rfl
      | cons t ts ih => exact congrArg (· + 1) (ih _)
    exact hlength ..
  range := h.range hsub
  child k c hc := by
    rw [row, getElem?_starts, Option.map_eq_some_iff] at hc
    obtain ⟨u, hu, rfl⟩ := hc
    simpa using (h.child hu).path_at u.paths_zero
  adjoining := h.adjoining [] sub.children rfl
  step_below _ _ _ hd := h.step_below hsub hd
  step_elsewhere _ _ hd hway := h.step_elsewhere hsub hd hway

end Mirrors

/-- The table filled from the root on mirrors the tree: it has one row for every node, in
pre-order, and each row tells of its node as much as there is to tell. -/
theorem build_mirrors (t : Trigger) :
    t.build.toList = t.arena ∧ t.build.size = t.paths.length ∧
    t.paths.Nodup ∧ (∀ path, path ∈ t.paths ↔ ∃ sub, t.at? path = some sub) ∧
    ∀ (i : Nat) (path : List Nat), t.paths[i]? = some path →
      ∃ r, t.build[i]? = some r ∧ t.Mirrors i path r := by
  refine ⟨t.toList_build, ?_, t.nodup_paths, t.mem_paths, fun i path hpath => ?_⟩
  · rw [← Array.length_toList, toList_build, length_arena, length_paths]
  · obtain ⟨sub, hsub, hblock⟩ := block_of_path hpath
    refine ⟨row sub i, ?_, hblock.mirrors hsub⟩
    rw [← Array.getElem?_toList, toList_build, hblock.row_at]

example :
    let t : Trigger := .orFinally
      (.repeatedly (.afterFirst [.afterCount 3, .afterCount 5])) (.afterCount 100)
    t.build.toList.map (fun r => (r.children, r.stop)) =
        [([1, 5], 6), ([2], 5), ([3, 4], 5), ([], 4), ([], 5), ([], 6)] ∧
      t.nextStep 0 4 = some 1 ∧ t.nextStep 2 4 = some 4 ∧ t.nextStep 2 5 = none := by decide

/-- The tree whose root has number `node`. -/
def subtree? (t : Trigger) (node : Nat) : Option Trigger := (t.paths[node]?).bind t.at?

theorem block_of_subtree? {t sub : Trigger} {node : Nat} (h : t.subtree? node = some sub) :
    ∃ path, t.at? path = some sub ∧ t.Block path sub node := by
  obtain ⟨path, hpath, hsub⟩ := Option.bind_eq_some_iff.mp h
  obtain ⟨sub', hsub', hblock⟩ := block_of_path hpath
  obtain rfl := Option.some.inj (hsub.symm.trans hsub')
  exact ⟨path, hsub, hblock⟩

theorem row_of_subtree? {t sub : Trigger} {node : Nat} (h : t.subtree? node = some sub) :
    t.arena[node]? = some (sub.row node) := by
  obtain ⟨path, hsub, hblock⟩ := block_of_subtree? h
  exact hblock.row_at

end Trigger

end EventTime
