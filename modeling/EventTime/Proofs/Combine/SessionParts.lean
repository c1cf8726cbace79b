import EventTime.Proofs.Combine.SessionBags

/-!
# Parts of sessions

Each shard of a hot key sees some of the key's elements, and so the first combine finds sessions that
are parts of the key's own. Together with the cold elements these parts have the sessions of the key
again, for they cross only where elements do. A hot element lies in exactly one part of its shard,
and the part lies in a session just if the element does.
-/

namespace EventTime

variable {κ ν : Type}

theorem Grouper.Fits.of_stamp {β : Type} {input : InputWatermark} {e : Envelope ν} {d : Envelope β}
    (h : Grouper.Fits input e) (hwindows : d.windows = e.windows)
    (htime : d.timestamp = e.timestamp) : Grouper.Fits input d := by
  obtain ⟨a, b, he, hproper, hstart⟩ := h
  exact ⟨a, b, hwindows.trans he, hproper, fun hinput => htime.trans (hstart hinput)⟩

variable {rows : List (Envelope (κ × ν))} {tagged : List (Envelope (Shard κ ν))}

theorem hotRows_fit (h : List.Forall₂ Tagged rows tagged) {input : InputWatermark}
    (hrows : ∀ e ∈ rows, Grouper.Fits input e) : ∀ d ∈ hotRows tagged, Grouper.Fits input d := by
  intro d hd
  obtain ⟨e, he, -, hwindows, htime⟩ := exists_of_mem_hotRows h hd
  exact (hrows e he).of_stamp hwindows htime

variable [DecidableEq κ]

theorem mem_windowsOf_rowsOf {key : κ} {rows : List (Envelope (κ × ν))} {w : Window} :
    w ∈ windowsOf (rowsOf key rows) ↔ ∃ e ∈ rows, e.value.1 = key ∧ w ∈ e.windows := by
  rw [windowsOf, List.mem_flatMap]
  constructor
  · rintro ⟨d, hd, hw⟩
    obtain ⟨e, he, hkey, rfl⟩ := mem_rowsOf.mp hd
    exact ⟨e, he, hkey, hw⟩
  · rintro ⟨e, he, hkey, hw⟩
    exact ⟨_, mem_rowsOf.mpr ⟨e, he, hkey, rfl⟩, hw⟩

theorem proper_of_fits {input : InputWatermark} {rows : List (Envelope (κ × ν))}
    (hrows : ∀ e ∈ rows, Grouper.Fits input e) (key : κ) :
    ∀ w ∈ windowsOf (rowsOf key rows), w.Proper := by
  intro w hw
  obtain ⟨e, he, -, hwe⟩ := mem_windowsOf_rowsOf.mp hw
  obtain ⟨a, b, hwindows, hproper, -⟩ := hrows e he
  rw [hwindows, List.mem_singleton] at hwe
  rwa [hwe]

theorem windowsOf_shard_subset (h : List.Forall₂ Tagged rows tagged) (shard : κ × UInt32) :
    windowsOf (rowsOf shard (hotRows tagged)) ⊆ windowsOf (rowsOf shard.1 rows) := by
  intro w hw
  obtain ⟨d, hd, hkey, hwd⟩ := mem_windowsOf_rowsOf.mp hw
  obtain ⟨e, he, hkey', hwindows, -⟩ := exists_of_mem_hotRows h hd
  exact mem_windowsOf_rowsOf.mpr ⟨e, he, hkey'.trans (congrArg Prod.fst hkey), hwindows ▸ hwd⟩

variable {info : PaneInfo} {bags : List (Bag (κ × UInt32) ν)}

theorem exists_part (h : List.Forall₂ Tagged rows tagged) {input : InputWatermark}
    (hrows : ∀ e ∈ rows, Grouper.Fits input e)
    (hbags : Bag.Enumerates bags (SessionBag (hotRows tagged)))
    {d : Envelope ((κ × UInt32) × ν)} (hd : d ∈ hotRows tagged) {v : Window} (hv : d.windows = [v]) :
    ∃ c ∈ bags, c.key = d.value.1 ∧ v.Within c.window := by
  have hmem : v ∈ windowsOf (rowsOf d.value.1 (hotRows tagged)) :=
    mem_windowsOf_rowsOf.mpr ⟨d, hd, rfl, by simp [hv]⟩
  have hproper := proper_of_fits (hotRows_fit h hrows) d.value.1
  cases v with
  | global => exact (hproper _ hmem).elim
  | interval a b =>
    obtain ⟨p, q, hs, hwithin⟩ := exists_session hproper hmem
    obtain ⟨c, hc, hkey, hwindow⟩ := hbags.complete ⟨p, q, rfl, hs, rfl⟩
    exact ⟨c, hc, hkey, hwindow ▸ hwithin⟩

theorem mem_windowsOf_weights {key : κ} {w : Window} :
    w ∈ windowsOf (rowsOf key (hotWeights info bags ++ tagged.flatMap coldWeight)) ↔
      (∃ c ∈ bags, c.key.1 = key ∧ c.window = w) ∨
        ∃ d ∈ tagged.flatMap coldWeight, d.value.1 = key ∧ w ∈ d.windows := by
  rw [mem_windowsOf_rowsOf]
  constructor
  · rintro ⟨e, he, hkey, hw⟩
    rcases List.mem_append.mp he with he | he
    · obtain ⟨c, hc, rfl⟩ := List.mem_map.mp he
      exact .inl ⟨c, hc, hkey, (List.mem_singleton.mp hw).symm⟩
    · exact .inr ⟨e, he, hkey, hw⟩
  · rintro (⟨c, hc, hkey, rfl⟩ | ⟨d, hd, hkey, hw⟩)
    · exact ⟨_, List.mem_append_left _ (List.mem_map_of_mem hc), hkey, List.mem_singleton_self _⟩
    · exact ⟨d, List.mem_append_right _ hd, hkey, hw⟩

theorem isSession_weights (h : List.Forall₂ Tagged rows tagged) {input : InputWatermark}
    (hrows : ∀ e ∈ rows, Grouper.Fits input e)
    (hbags : Bag.Enumerates bags (SessionBag (hotRows tagged))) (key : κ) {p q : Int} :
    IsSession (windowsOf (rowsOf key (hotWeights info bags ++ tagged.flatMap coldWeight))) p q ↔
      IsSession (windowsOf (rowsOf key rows)) p q := by
  have hcold : ∀ d ∈ tagged.flatMap coldWeight, d.value.1 = key → ∀ w ∈ d.windows,
      w ∈ windowsOf (rowsOf key rows) := by
    intro d hd hkey w hw
    obtain ⟨e, he, hkey', hwindows⟩ := exists_of_mem_coldWeight h hd
    exact mem_windowsOf_rowsOf.mpr ⟨e, he, hkey'.trans hkey, hwindows ▸ hw⟩
  -- hot windows lie in the part of their shard, which is crossed only where its windows are
  refine isSession_congr (proper_of_fits hrows key) (fun w hw => ?_) (fun v hv => ?_)
    fun v hv x hcross => ?_
  · obtain ⟨e, he, hkey, hwe⟩ := mem_windowsOf_rowsOf.mp hw
    obtain ⟨a, b, hwindows, hproper, -⟩ := hrows e he
    rw [hwindows, List.mem_singleton] at hwe
    subst hwe
    rcases hot_or_cold h he with ⟨d, hd, hkey', hsame⟩ | ⟨d, hd, hkey', hsame⟩
    · obtain ⟨c, hc, hshard, hwithin⟩ := exists_part h hrows hbags hd (hsame.trans hwindows)
      refine ⟨c.window, mem_windowsOf_weights.mpr (.inl ⟨c, hc, ?_, rfl⟩), hwithin⟩
      rw [hshard, hkey', hkey]
    · refine ⟨_, mem_windowsOf_weights.mpr (.inr ⟨d, hd, hkey'.trans hkey, ?_⟩),
        Window.within_refl hproper⟩
      rw [hsame, hwindows]
      exact List.mem_singleton_self _
  · rcases mem_windowsOf_weights.mp hv with ⟨c, hc, rfl, rfl⟩ | ⟨d, hd, hkey, hvd⟩
    · obtain ⟨p, q, hwindow, hs, -⟩ := hbags.sound c hc
      obtain ⟨w, hw, hwithin⟩ := hs.inhabited
      exact ⟨w, windowsOf_shard_subset h _ hw, hwindow ▸ hwithin⟩
    · have hmem := hcold d hd hkey v hvd
      exact ⟨v, hmem, Window.within_refl (proper_of_fits hrows key v hmem)⟩
  · rcases mem_windowsOf_weights.mp hv with ⟨c, hc, rfl, rfl⟩ | ⟨d, hd, hkey, hvd⟩
    · obtain ⟨p, q, hwindow, hs, -⟩ := hbags.sound c hc
      rw [hwindow] at hcross
      obtain ⟨w, hw, hcross'⟩ := hs.linked x hcross.1 hcross.2
      exact ⟨w, windowsOf_shard_subset h _ hw, hcross'⟩
    · exact ⟨v, hcold d hd hkey v hvd, hcross⟩

/-- A hot element is within a session as often as the part of its shard that it lies in. -/
theorem insides_cover (h : List.Forall₂ Tagged rows tagged) {input : InputWatermark}
    (hrows : ∀ e ∈ rows, Grouper.Fits input e)
    (hbags : Bag.Enumerates bags (SessionBag (hotRows tagged)))
    {d : Envelope ((κ × UInt32) × ν)} (hd : d ∈ hotRows tagged) {p q : Int}
    (hs : IsSession (windowsOf (rowsOf d.value.1.1 rows)) p q) :
    (bags.map fun c => if d.value.1 = c.key then
      insides (.interval p q) [c.window] * insides c.window d.windows else 0).sum =
      insides (.interval p q) d.windows := by
  obtain ⟨a, b, hwindows, hproper, -⟩ := hotRows_fit h hrows d hd
  obtain ⟨c, hc, hkey, hwithin⟩ := exists_part h hrows hbags hd hwindows
  obtain ⟨p', q', hwindow, hpart, -⟩ := hbags.sound c hc
  rw [hwindows, sum_map_unique hbags.nodup _ hc fun c' hc' hne => ?_, if_pos hkey.symm,
    insides_singleton, insides_singleton, insides_singleton, if_pos hwithin, Nat.mul_one]
  · -- the part lies in the session just if the element does
    have hiff : c.window.Within (.interval p q) ↔
        (Window.interval a b).Within (.interval p q) := by
      refine ⟨hwithin.trans, fun hab => ?_⟩
      rw [hwindow] at hwithin ⊢
      rw [hkey] at hpart
      simp only [Window.Within, Window.Proper] at hwithin hab hproper
      exact hs.within_of_subset hpart (windowsOf_shard_subset h _) (by omega) (by omega)
    simp only [hiff]
  · by_cases hshard : d.value.1 = c'.key
    · rw [if_pos hshard, insides_singleton c'.window, if_neg, Nat.mul_zero]
      intro hwithin'
      obtain ⟨p'', q'', hwindow', hpart', -⟩ := hbags.sound c' hc'
      rw [← hshard, ← hkey] at hpart'
      rw [hwindow] at hwithin
      rw [hwindow'] at hwithin'
      obtain ⟨rfl, rfl⟩ := hpart'.eq_of_within hpart hproper hwithin' hwithin
      exact hne (Prod.ext (hshard.symm.trans hkey.symm) (hwindow'.trans hwindow.symm))
    · rw [if_neg hshard]

end EventTime
