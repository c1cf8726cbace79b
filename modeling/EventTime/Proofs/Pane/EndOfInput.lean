import Mathlib.Data.List.Permutation
import EventTime.Proofs.Pane.Flush
import EventTime.Proofs.Window.SafePlan

/-!
# The end of the input

Once the input has ended no window is left, and every listing that was kept has been shown in a
pane: the last move of the watermark collects every window. It does nothing, though, when the
watermark already stands at the end of time, as it does after an element with that timestamp. Such
an element must therefore not open a window that outlives the move; one whose expiry saturates at
the end of time does.
-/

namespace EventTime

variable {ν : Type} {s : Strategy}

namespace Grouper

variable {g g' : Grouper s ν} {w : Window}

theorem settle_watermark {answer : Except Fault Outcome × TriggerState s.trigger}
    (h : g.settle w answer = .ok g') : g'.watermark = g.watermark := by
  obtain ⟨o, -, rfl⟩ := ok_of_map h
  exact act_watermark ..

theorem deliverTimer_watermark {a : Timer} (h : g.deliverTimer a = .ok g') :
    g'.watermark = g.watermark := by
  rcases deliverTimer_ok h with rfl | ⟨-, h⟩
  · rfl
  · exact settle_watermark h

theorem drain_watermark {fuel : Nat} (h : drain fuel g = .ok g') : g'.watermark = g.watermark :=
  drain_preserves (P := fun k => k.watermark = g.watermark)
    (fun _ _ _ hk hone => (deliverTimer_watermark hone).trans hk) h rfl

/-- A move of the watermark that is not void leaves only windows that can still fire. -/
theorem advance_ok {target : Int} (hlt : g.watermark < target) (h : g.advance target = .ok g') :
    g'.watermark = target ∧ g'.Live := by
  simp only [advance, if_neg (Int.not_le.mpr hlt)] at h
  obtain ⟨g₁, hdrain, hcollect⟩ := ok_of_bind h
  obtain rfl := Except.ok.inj hcollect
  exact ⟨(collectAll_watermark ..).trans (drain_watermark hdrain), live_collectAll g₁⟩

theorem advance_watermark {target : Int} (h : g.advance target = .ok g') :
    g'.watermark = max g.watermark target := by
  by_cases hle : target ≤ g.watermark
  · obtain rfl := Except.ok.inj ((advance_of_le hle).symm.trans h)
    omega
  · have := (advance_ok (by omega) h).1
    omega

theorem deliver_watermark {timestamp : Int} {v : ν} (h : g.deliver w timestamp v = .ok g') :
    g'.watermark = g.watermark := by
  cases hc : (g.buffers.find? w).any (·.closed) with
  | true => exact Except.ok.inj ((deliver_closed hc).symm.trans h) ▸ rfl
  | false =>
    rw [deliver_open hc] at h
    exact (settle_watermark h).trans rfl

theorem mergeOne_watermark {m : Merge} (h : g.mergeOne m = .ok g') :
    g'.watermark = g.watermark := by
  obtain ⟨o, -, rfl⟩ := ok_of_map (x := (g.state.merge m).1) h
  exact actOnMerge_watermark ..

theorem expiry_le (w : Window) : s.expiry w ≤ maxTime := (inRange_later ..).2

/-- No window is left once the watermark stands at the end of time. -/
def Emptied (g : Grouper s ν) : Prop := maxTime ≤ g.watermark → ∀ w, ¬g.Has w

theorem Emptied.advance (hempty : g.Emptied) {target : Int} (h : g.advance target = .ok g') :
    g'.Emptied := by
  by_cases hle : target ≤ g.watermark
  · exact Except.ok.inj ((advance_of_le hle).symm.trans h) ▸ hempty
  · obtain ⟨hwatermark, hlive⟩ := advance_ok (by omega) h
    rintro hend w ⟨b, hb⟩
    refine hlive w b hb ?_
    have := expiry_le (s := s) w
    unfold Due
    omega

end Grouper

/-! ### Accounts -/

namespace Whereabouts

/-- Whether a grouping bears out what is noted about a listing. -/
def BorneOut (f : Whereabouts) (g : Grouper s ν) (v : ν) : Prop :=
  match f with
  | .sitting w => g.Retains (some w) v
  | .collected => g.Retains none v
  | _ => True

theorem BorneOut.imp {f : Whereabouts} {g g' : Grouper s ν} {v : ν} (h : f.BorneOut g v)
    (himp : ∀ w, g.Retains w v → g'.Retains w v) : f.BorneOut g' v := by
  cases f with
  | sitting w => exact himp _ h
  | collected => exact himp _ h
  | expired => trivial
  | refused => trivial
  | lost => trivial

end Whereabouts

namespace Audit

variable {a a' : Audit s ν} {listings : List (Listing ν)} {w w' : Window}

/-- There is a note on every listing so far, and each is borne out. -/
structure Sound (a : Audit s ν) (listings : List (Listing ν)) : Prop where
  listed : a.notes.map Prod.fst = listings
  borneOut : ∀ p ∈ a.notes, p.2.BorneOut a.grouper p.1.value

theorem Sound.rewrite (h : a.Sound listings) {g : Grouper s ν} {f : Whereabouts → Whereabouts}
    (hf : ∀ (x : Whereabouts) (v : ν), x.BorneOut a.grouper v → (f x).BorneOut g v) :
    Sound ⟨g, a.rewrite f⟩ listings := by
  refine ⟨?_, fun p hp => ?_⟩
  · rw [← h.listed, Audit.rewrite, List.map_map]
    rfl
  · obtain ⟨q, hq, rfl⟩ := List.mem_map.mp hp
    exact hf q.2 q.1.value (h.borneOut q hq)

theorem Sound.imp (h : a.Sound listings) {g : Grouper s ν}
    (himp : ∀ w v, a.grouper.Retains w v → g.Retains w v) : Sound ⟨g, a.notes⟩ listings :=
  ⟨h.listed, fun p hp => (h.borneOut p hp).imp fun w => himp w p.1.value⟩

theorem Sound.concat (h : a.Sound listings) {x : Listing ν} {f : Whereabouts}
    (hx : f.BorneOut a.grouper x.value) :
    Sound ⟨a.grouper, a.notes ++ [(x, f)]⟩ (listings ++ [x]) := by
  refine ⟨?_, fun p hp => ?_⟩
  · rw [List.map_append, h.listed]
    rfl
  · rcases List.mem_append.mp hp with hp | hp
    · exact h.borneOut p hp
    · rw [List.mem_singleton.mp hp]
      exact hx

theorem Sound.mergeOne (h : a.Sound listings) {m : Merge} (hnodup : m.olds.Nodup)
    (hinto : a.grouper.Has m.into → m.into ∈ m.olds) (heq : a.mergeOne m = .ok a') :
    a'.Sound listings ∧ a'.grouper.watermark = a.grouper.watermark ∧
      ∀ x, a'.grouper.Has x ↔ m.leaves a.grouper.Has x := by
  obtain ⟨g, hone, rfl⟩ := ok_of_map heq
  refine ⟨h.rewrite fun f v hf => ?_, Grouper.mergeOne_watermark hone,
    Grouper.has_mergeOne hnodup hone⟩
  split
  · rename_i hmem
    obtain ⟨u, hu, rfl⟩ := List.mem_map.mp hmem
    unfold destination
    split
    · trivial
    · rename_i hfinished
      exact Grouper.Retains.mergeOne_of_mem hf hnodup hu hfinished hone
  · rename_i hmem
    cases f with
    | sitting x =>
      refine Grouper.Retains.mergeOne_of_not_mem hf hnodup hinto (fun y hy e => hmem ?_) hone
      exact List.mem_map.mpr ⟨y, hy, by rw [Option.some.inj e]⟩
    | collected => exact Grouper.Retains.mergeOne_of_not_mem hf hnodup hinto (fun _ _ => nofun) hone
    | expired => trivial
    | refused => trivial
    | lost => trivial

theorem Sound.mergeEach {ms : List Merge} (h : a.Sound listings) (plan : SafePlan a.grouper.Has ms)
    (heq : Audit.mergeEach ms a w = .ok (a', w')) :
    a'.Sound listings ∧ a'.grouper.watermark = a.grouper.watermark := by
  induction ms generalizing a w with
  | nil =>
    cases heq
    exact ⟨h, rfl⟩
  | cons m ms ih =>
    obtain ⟨a₁, hone, hrest⟩ := ok_of_bind heq
    obtain ⟨h₁, hwatermark, hhas⟩ := h.mergeOne (plan.nodup m (List.mem_cons_self ..))
      (plan.into_live m (List.mem_cons_self ..)) hone
    obtain ⟨h', hwatermark'⟩ := ih h₁ (plan.tail.congr hhas) hrest
    exact ⟨h', hwatermark'.trans hwatermark⟩

theorem Sound.mergeWindows (h : a.Sound listings)
    (hfn : s.windowFn.nonMerging = true ∨ ∃ gap, s.windowFn = .sessions gap)
    (heq : a.mergeWindows w = .ok (a', w')) :
    a'.Sound listings ∧ a'.grouper.watermark = a.grouper.watermark := by
  unfold Audit.mergeWindows at heq
  split at heq
  · cases heq
    exact ⟨h, rfl⟩
  · rename_i hmerging
    obtain ⟨gap, hgap⟩ := hfn.resolve_left hmerging
    rw [hgap] at heq
    refine h.mergeEach ?_ heq
    exact (WindowFn.overlapping_safe (WindowMap.keys_sorted _)).congr fun w =>
      WindowMap.mem_keys.symm

theorem place_expired {x : Listing ν} (hx : s.expiry x.window < a.grouper.watermark) :
    a.place x = .ok ⟨a.grouper, a.notes ++ [(x, .expired)]⟩ := if_pos hx

theorem Sound.place (h : a.Sound listings)
    (hfn : s.windowFn.nonMerging = true ∨ ∃ gap, s.windowFn = .sessions gap) {x : Listing ν}
    (heq : a.place x = .ok a') :
    a'.Sound (listings ++ [x]) ∧ a'.grouper.watermark = a.grouper.watermark := by
  by_cases hx : s.expiry x.window < a.grouper.watermark
  · obtain rfl := Except.ok.inj ((place_expired hx).symm.trans heq)
    exact ⟨h.concat trivial, rfl⟩
  · simp only [Audit.place, if_neg hx] at heq
    obtain ⟨⟨a₁, w⟩, hmerge, hrest⟩ := ok_of_bind heq
    obtain ⟨g, hdeliver, rfl⟩ := ok_of_map hrest
    obtain ⟨h₁, hwatermark⟩ := Sound.mergeWindows (a := ⟨a.grouper.opened x.window, a.notes⟩)
      (h.imp fun _ _ hv => hv.opened x.window) hfn hmerge
    refine ⟨(h₁.imp (g := g) fun _ _ hv => hv.deliver hdeliver).concat ?_,
      (Grouper.deliver_watermark hdeliver).trans
        (hwatermark.trans (Grouper.opened_watermark ..))⟩
    cases hc : (a₁.grouper.buffers.find? w).any (·.closed) with
    | true => trivial
    | false => exact Grouper.retains_delivered hc hdeliver

theorem Sound.advance (h : a.Sound listings) {target : Int} (heq : a.advance target = .ok a') :
    a'.Sound listings := by
  obtain ⟨g, hadvance, rfl⟩ := ok_of_map heq
  refine h.rewrite fun f v hf => ?_
  have hkept := hf.imp fun w (hw : a.grouper.Retains w v) => hw.advance hadvance
  cases f with
  | sitting w =>
    show Whereabouts.BorneOut (if g.buffers.contains w then .sitting w else .collected) g v
    split
    · exact hkept
    · rename_i hgone
      refine .inl (Grouper.Retains.shown hkept fun x hx hhas => hgone ?_)
      exact Option.some.inj hx ▸ WindowMap.contains_iff.mpr hhas
  | collected => exact hkept
  | expired => trivial
  | refused => trivial
  | lost => trivial

/-! ### Runs -/

/-- An audit in the middle of its run: its notes are borne out, its watermark has passed none of the
elements so far, and it has no window once the watermark stands at the end of time. -/
structure OnCourse (a : Audit s ν) (mode : InputWatermark) (front : List (Envelope ν)) : Prop where
  sound : a.Sound (listingsOf front)
  behind : a.grouper.Behind mode front
  emptied : a.grouper.Emptied

theorem onCourse_start (s : Strategy) (mode : InputWatermark) :
    ({} : Audit s ν).OnCourse mode [] :=
  ⟨⟨rfl, nofun⟩, Grouper.behind_start mode, fun _ _ => nofun⟩

theorem follow_grouper {mode : InputWatermark} {timestamp : Int}
    (heq : a.follow mode timestamp = .ok a') :
    a.grouper.follow mode timestamp = .ok a'.grouper := by
  rw [← grouper_follow, heq]
  rfl

theorem OnCourse.follow {mode : InputWatermark} {front : List (Envelope ν)}
    (h : a.OnCourse mode front) {timestamp : Int} (heq : a.follow mode timestamp = .ok a') :
    a'.Sound (listingsOf front) ∧ a'.grouper.Emptied ∧
      a'.grouper.watermark = Grouper.pace mode a.grouper.watermark timestamp := by
  have hgrouper := follow_grouper heq
  cases mode with
  | elementTime =>
    exact ⟨h.sound.advance heq, h.emptied.advance hgrouper, Grouper.advance_watermark hgrouper⟩
  | heldUntilEnd =>
    obtain rfl := Except.ok.inj heq
    exact ⟨h.sound, h.emptied, rfl⟩

/-- An element that may open windows at the end of time does not come when the watermark is there. -/
theorem OnCourse.timely {mode : InputWatermark} {front : List (Envelope ν)} {e : Envelope ν}
    (h : a.OnCourse mode front) (horder : ∀ d ∈ front, d.timestamp ≤ e.timestamp)
    (hend : mode = .elementTime → e.timestamp = maxTime → ∀ w ∈ e.windows, s.expiry w < maxTime)
    (hw : w ∈ e.windows)
    (htaken : ¬s.expiry w < Grouper.pace mode a.grouper.watermark e.timestamp) :
    Grouper.pace mode a.grouper.watermark e.timestamp < maxTime := by
  by_contra hmax
  have hle := h.behind.pace_le horder
  have hexpiry := Grouper.expiry_le (s := s) w
  have hmin : minTime < maxTime := by decide
  cases mode with
  | heldUntilEnd =>
    have hheld := h.behind.held rfl
    simp only [Grouper.pace] at hmax
    omega
  | elementTime =>
    have hlast : e.timestamp = maxTime := by
      simp only [Grouper.pace] at *
      omega
    have := hend rfl hlast w hw
    omega

theorem OnCourse.take {mode : InputWatermark} {front : List (Envelope ν)} {e : Envelope ν}
    (h : a.OnCourse mode front)
    (hfn : s.windowFn.nonMerging = true ∨ ∃ gap, s.windowFn = .sessions gap)
    (horder : ∀ d ∈ front, d.timestamp ≤ e.timestamp)
    (hend : mode = .elementTime → e.timestamp = maxTime → ∀ w ∈ e.windows, s.expiry w < maxTime)
    (heq : a.take mode e = .ok a') : a'.OnCourse mode (front ++ [e]) := by
  obtain ⟨a₁, hfollow, hplaces⟩ := ok_of_bind heq
  obtain ⟨hsound, hempty, hpace⟩ := h.follow hfollow
  obtain ⟨hsound', hempty', hwatermark⟩ := foldlM_preserves
    (fun before (b : Audit s ν) =>
      b.Sound (listingsOf front ++ before.map fun w => ⟨e.timestamp, w, e.value⟩) ∧
        b.grouper.Emptied ∧ b.grouper.watermark = a₁.grouper.watermark)
    (fun before w after b b' hsplit ⟨hb, hbempty, hbw⟩ hplace => by
      have hw : w ∈ e.windows := hsplit ▸ by simp
      obtain ⟨hb', hkept⟩ := hb.place hfn hplace
      refine ⟨by simpa using hb', fun hmax => ?_, hkept.trans hbw⟩
      -- the watermark stands at the end of time, so that the listing has been dropped
      have hexpired : s.expiry w < b.grouper.watermark := by
        by_contra htaken
        rw [hbw, hpace] at htaken
        have := h.timely horder hend hw htaken
        omega
      obtain rfl := Except.ok.inj
        ((place_expired (x := ⟨e.timestamp, w, e.value⟩) hexpired).symm.trans hplace)
      exact hbempty hmax)
    ⟨by simpa using hsound, hempty, rfl⟩ hplaces
  exact ⟨by simpa [listingsOf] using hsound', h.behind.concat (hwatermark.trans hpace), hempty'⟩

theorem advance_grouper {target : Int} (heq : a.advance target = .ok a') :
    a.grouper.advance target = .ok a'.grouper := by
  rw [← grouper_advance, heq]
  rfl

theorem emptied_at_end (hempty : a.grouper.Emptied) (heq : a.advance maxTime = .ok a') :
    ∀ w, ¬a'.grouper.Has w := by
  have hadvance := advance_grouper heq
  refine hempty.advance hadvance ?_
  rw [Grouper.advance_watermark hadvance]
  exact Int.le_max_right ..

/-- What a run leaves that has come to its end. -/
theorem run_sound {mode : InputWatermark} {elements : List (Envelope ν)}
    (hfn : s.windowFn.nonMerging = true ∨ ∃ gap, s.windowFn = .sessions gap)
    (hend : mode = .elementTime → ∀ e ∈ elements, e.timestamp = maxTime →
      ∀ w ∈ e.windows, s.expiry w < maxTime) (heq : run s mode elements = .ok a) :
    a.Sound (listingsOf (Grouper.inTimeOrder elements)) ∧ ∀ w, ¬a.grouper.Has w := by
  obtain ⟨a₁, hfold, hadvance⟩ := ok_of_bind heq
  have hsorted := Grouper.inTimeOrder_sorted elements
  have hcourse := foldlM_preserves (fun front (b : Audit s ν) => b.OnCourse mode front)
    (fun front e back b b' hsplit hb htake => by
      have hmem : e ∈ elements := Grouper.mem_inTimeOrder.mp (hsplit ▸ by simp)
      rw [hsplit] at hsorted
      exact hb.take hfn (fun d hd => (List.pairwise_append.mp hsorted).2.2 d hd e (by simp))
        (fun hmode => hend hmode e hmem) htake)
    (onCourse_start s mode) hfold
  exact ⟨hcourse.sound.advance hadvance, emptied_at_end hcourse.emptied hadvance⟩

end Audit

namespace Grouper

/-- When the input has ended no window is left, and every listing that was not dropped has its value
in a pane, unless an element at the end of time lists a window whose expiry is not before it. -/
theorem run_flushes (s : Strategy) (mode : InputWatermark) (elements : List (Envelope ν))
    (panes : List (Pane ν))
    (hfn : s.windowFn.nonMerging = true ∨ ∃ gap, s.windowFn = .sessions gap)
    (hend : mode = .elementTime → ∀ e ∈ elements, e.timestamp = maxTime →
      ∀ w ∈ e.windows, s.expiry w < maxTime)
    (hrun : run s mode elements = .ok panes) :
    ∃ a, Audit.run s mode elements = .ok a ∧ a.grouper.panes = panes ∧
      a.notes.map Prod.fst = listingsOf (inTimeOrder elements) ∧ (∀ w, ¬a.grouper.Has w) ∧
      ∀ p ∈ a.notes, p.2 = .expired ∨ p.2 = .refused ∨ p.2 = .lost ∨
        ∃ pane ∈ panes, p.1.value ∈ pane.values := by
  obtain ⟨a, haudit, rfl⟩ := ok_of_map ((Audit.panes_run s mode elements).trans hrun)
  obtain ⟨hsound, hnone⟩ := Audit.run_sound hfn hend haudit
  refine ⟨a, haudit, rfl, hsound.listed, hnone, fun p hp => ?_⟩
  have hborne := hsound.borneOut p hp
  cases hf : p.2 with
  | sitting w =>
    rw [hf] at hborne
    exact .inr (.inr (.inr (Retains.shown hborne fun x _ => hnone x)))
  | collected =>
    rw [hf] at hborne
    exact .inr (.inr (.inr (Retains.shown hborne fun x _ => hnone x)))
  | expired => exact .inl rfl
  | refused => exact .inr (.inl rfl)
  | lost => exact .inr (.inr (.inl rfl))

/-- Two sessions: the first finishes, takes in no more and is lost in a merge; a listing of the
second one is still waiting when the input ends, and one at the end of time has expired. -/
theorem run_flushes_of_two_sessions :
    let s : Strategy := ⟨.sessions 5, .afterCount 2, .discarding, 0⟩
    let elements : List (Envelope Nat) := [⟨1, 1, [.interval 1 6], .noFiring⟩,
      ⟨2, 2, [.interval 1 6], .noFiring⟩, ⟨3, 4, [.interval 4 9], .noFiring⟩,
      ⟨4, 20, [.interval 20 25], .noFiring⟩, ⟨5, maxTime, [.interval 20 25], .noFiring⟩]
    (∀ e ∈ elements, e.timestamp = maxTime → ∀ w ∈ e.windows, s.expiry w < maxTime) ∧
      ∃ a, Audit.run s .elementTime elements = .ok a ∧
        a.notes.map (·.2) = [.lost, .lost, .refused, .collected, .expired] ∧
        (∀ w, ¬a.grouper.Has w) ∧ ∃ pane ∈ a.grouper.panes, 4 ∈ pane.values := by
  intro s elements
  have hend : ∀ e ∈ elements, e.timestamp = maxTime → ∀ w ∈ e.windows, s.expiry w < maxTime := by
    decide
  have hrun : run s .elementTime elements =
      .ok [⟨.interval 1 6, ⟨0, true, true, .early⟩, [1, 2]⟩,
        ⟨.interval 20 25, ⟨0, true, true, .onTime⟩, [4]⟩] := by
    cbv
  have hnotes : (Audit.run s .elementTime elements).map (·.notes.map (·.2)) =
      .ok [.lost, .lost, .refused, .collected, .expired] := by
    cbv
  obtain ⟨a, haudit, hpanes, -, hnone, -⟩ := run_flushes s .elementTime elements _
    (.inr ⟨5, rfl⟩) (fun _ => hend) hrun
  rw [haudit] at hnotes
  exact ⟨hend, a, haudit, Except.ok.inj hnotes, hnone, hpanes ▸ ⟨_, .tail _ (.head _), .head _⟩⟩

/-- Two days of lateness keep the global window open at the end of time: an element with that
timestamp opens it when the watermark is there already, and it is never collected. -/
theorem run_not_flushed_of_last_instant :
    let s : Strategy := ⟨.global, .afterCount 10, .discarding, 172800000⟩
    let elements : List (Envelope Nat) := [⟨1, maxTime, [.global], .noFiring⟩]
    run s .elementTime elements = .ok [] ∧
      ∃ a, Audit.run s .elementTime elements = .ok a ∧
        a.notes.map (·.2) = [.sitting .global] ∧ a.grouper.Has .global := by
  intro s elements
  have hnotes : (Audit.run s .elementTime elements).map (·.notes.map (·.2)) =
      .ok [.sitting .global] := by
    cbv
  have hheld : (Audit.run s .elementTime elements).map (·.grouper.buffers.find? .global) =
      .ok (some ⟨[1], 1, 0, false, false⟩) := by
    cbv
  obtain ⟨a, haudit, hsitting⟩ := ok_of_map hnotes
  obtain ⟨a', haudit', hbuffer⟩ := ok_of_map hheld
  obtain rfl := Except.ok.inj (haudit.symm.trans haudit')
  exact ⟨by cbv, a, haudit, hsitting, _, hbuffer⟩

end Grouper

end EventTime
