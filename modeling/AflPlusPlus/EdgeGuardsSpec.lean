import AflPlusPlus.EdgeGuards

/-!
# Edge identifiers are unique

While the counter stays within its 32 bits, the guards of all modules that have been numbered
before the fork server starts are pairwise distinct, and the map has a place for each of them.
-/

namespace AflPlusPlus.EdgeGuards

open TransitionSystems

variable {env : Env} {sys : Syscall → Bool} {s t : State}

/-! ## The range of numbers that a call gives out -/

/-- The guards that are kept get the numbers after the counter, in order. -/
theorem numberGuards_spec (keep : List Bool) (loc : ℕ) (h : loc + keep.count true < 2 ^ 32) :
    (numberGuards keep loc).2 = loc + keep.count true ∧
      (numberGuards keep loc).1.filter (· ≠ 0) = List.range' (loc + 1) (keep.count true) := by
  induction keep generalizing loc with
  | nil => exact ⟨rfl, rfl⟩
  | cons kept keep ih =>
    cases kept with
    | false =>
      rw [List.count_cons_of_ne (by decide)] at h ⊢
      obtain ⟨hloc, hids⟩ := ih loc h
      exact ⟨hloc, by simpa [numberGuards] using hids⟩
    | true =>
      rw [List.count_cons_self] at h ⊢
      have hnext : u32 (loc + 1) = loc + 1 := u32_of_lt (by omega)
      obtain ⟨hloc, hids⟩ := ih (loc + 1) (by omega)
      simp only [numberGuards, hnext]
      refine ⟨by omega, ?_⟩
      rw [List.filter_cons_of_pos (by simp), hids, List.range'_succ]

/-- The first guard of a range that has been numbered tells so. -/
theorem numberGuards_true_head (keep : List Bool) (loc : ℕ) (h : loc + 1 < 2 ^ 32) :
    (numberGuards (true :: keep) loc).1.head? ≠ some 0 := by
  simp [numberGuards, u32_of_lt h]

/-! ## Setting up the map -/

theorem State.attach_eq (h : s.attach env sys = some t) :
    ∃ area dummy size, t = { s with area := area, dummy := dummy, mapSize := size } := by
  unfold State.attach at h
  split_ifs at h <;> obtain rfl := Option.some.inj h <;> exact ⟨_, _, _, rfl⟩

theorem State.selectArea_eq (env : Env) (sys : Syscall → Bool) (s : State) :
    ∃ area dummy selective, s.selectArea env sys =
      { s with area := area, dummy := dummy, selectiveCoverage := selective } := by
  unfold State.selectArea
  split_ifs <;> exact ⟨_, _, _, rfl⟩

/-- What setting up the map does to the counter and the guards. -/
structure State.Maps (env : Env) (s t : State) : Prop where
  /-- With a counter that is not zero the process goes on only if it is not to print the size. -/
  goesOn : s.finalLoc = 0 ∨ env.dumpMapSize = false
  shm : t.shm = true
  finalLoc : t.finalLoc = (s.sizeWithoutShm env).finalLoc
  firstFinalLoc : t.firstFinalLoc = s.firstFinalLoc
  early : t.early = s.early
  second : t.second = s.second
  forkserver : t.forkserver = s.forkserver
  modules : t.modules = s.modules

theorem State.sizeWithoutShm_finalLoc (env : Env) (s : State) (size : ℕ) (shm : Bool)
    (area : Area) :
    (State.sizeWithoutShm env { s with mapSize := size, shm := shm, area := area }).finalLoc =
      (s.sizeWithoutShm env).finalLoc := by
  unfold State.sizeWithoutShm
  split_ifs <;> rfl

theorem State.sizeWithoutShm_eq (env : Env) (s : State) : ∃ size,
    s.sizeWithoutShm env =
      { s with mapSize := size, finalLoc := (s.sizeWithoutShm env).finalLoc } := by
  unfold State.sizeWithoutShm
  split_ifs <;> exact ⟨_, rfl⟩

theorem State.mapShm_maps (h : s.mapShm env sys = some t) (hshm : s.shm = false) :
    s.Maps env t := by
  simp only [State.mapShm, hshm, Bool.false_eq_true, if_false, Option.bind_eq_bind,
    Option.bind_eq_some_iff] at h
  obtain ⟨u, hu, v, hv, h⟩ := h
  have hgoes : s.finalLoc = 0 ∨ env.dumpMapSize = false := by
    by_contra hcon
    rw [not_or, Bool.not_eq_false] at hcon
    simp [State.sizeFromCounter, hcon] at hu
  obtain ⟨size, area, hu⟩ : ∃ size area,
      u = { s with mapSize := size, shm := true, area := area } := by
    unfold State.sizeFromCounter at hu
    split_ifs at hu <;> obtain rfl := Option.some.inj hu <;> exact ⟨_, _, rfl⟩
  obtain ⟨size', hsize⟩ := State.sizeWithoutShm_eq env u
  obtain ⟨area', dummy, size'', hattach⟩ := State.attach_eq hv
  obtain ⟨area'', dummy', selective, hselect⟩ := State.selectArea_eq env sys v
  have ht : v.selectArea env sys = t := by
    split_ifs at h
    exact Option.some.inj h
  have hloc : (u.sizeWithoutShm env).finalLoc = (s.sizeWithoutShm env).finalLoc := by
    rw [hu]
    exact State.sizeWithoutShm_finalLoc env s _ _ _
  rw [← ht, hselect, hattach, hsize, hloc, hu]
  exact ⟨hgoes, rfl, rfl, rfl, rfl, rfl, rfl, rfl⟩

/-- The counter has been raised to the sizes that the map of a process on its own takes. -/
def State.Settled (env : Env) (s : State) : Prop :=
  env.shmId = false →
    (mapInitialSize < env.mapSizeVal → env.mapSizeVal ≤ s.finalLoc) ∧
      (mapInitialSize < s.firstFinalLoc → s.firstFinalLoc ≤ s.finalLoc)

theorem State.Settled.sizeWithoutShm (h : s.Settled env) :
    (s.sizeWithoutShm env).finalLoc = s.finalLoc := by
  unfold State.sizeWithoutShm
  split
  · rfl
  · next hshm =>
    obtain ⟨hval, hfirst⟩ := h (Bool.not_eq_true _ ▸ hshm)
    refine if_neg fun ⟨hinitial, hlt⟩ => ?_
    unfold State.ownMapSize at hinitial hlt
    split_ifs at hinitial hlt <;> omega

theorem State.le_sizeWithoutShm (env : Env) (s : State) :
    s.finalLoc ≤ (s.sizeWithoutShm env).finalLoc := by
  unfold State.sizeWithoutShm
  split
  · exact le_rfl
  · dsimp only
    split_ifs with h
    · exact h.2.le
    · exact le_rfl

theorem State.Maps.settled (h : s.Maps env t) (hfirst : s.firstFinalLoc ≤ s.finalLoc + 1) :
    t.Settled env := by
  intro hshm
  rw [h.finalLoc, h.firstFinalLoc]
  unfold State.sizeWithoutShm State.ownMapSize
  simp only [hshm, Bool.false_eq_true, if_false]
  constructor <;> intro hlt <;> split_ifs <;> omega

/-! ## The guards of all modules -/

/-- Numbering an empty range adds its numbers to those of the other modules. -/
theorem edgeIds_set {module : ℕ} {guards : List ℕ} (hguards : s.modules[module]? = some guards)
    (hzero : ∀ g ∈ guards, g = 0) (numbered : List ℕ) :
    ({ s with modules := s.modules.set module numbered }).edgeIds.Perm
      (s.edgeIds ++ numbered.filter (· ≠ 0)) := by
  obtain ⟨hlt, rfl⟩ := List.getElem?_eq_some_iff.mp hguards
  have hnone : s.modules[module].filter (· ≠ 0) = [] := by
    simpa [List.filter_eq_nil_iff] using hzero
  have hsplit : s.modules =
      s.modules.take module ++ s.modules[module] :: s.modules.drop (module + 1) := by
    rw [List.getElem_cons_drop, List.take_append_drop]
  have hset : s.modules.set module numbered =
      s.modules.take module ++ numbered :: s.modules.drop (module + 1) :=
    List.set_eq_take_append_cons_drop .. |>.trans (if_pos hlt)
  have hold : s.edgeIds = (s.modules.take module).flatten.filter (· ≠ 0) ++
      (s.modules.drop (module + 1)).flatten.filter (· ≠ 0) := by
    unfold State.edgeIds
    conv_lhs => rw [hsplit]
    rw [List.flatten_append, List.flatten_cons, List.filter_append, List.filter_append, hnone,
      List.nil_append]
  rw [hold]
  simp only [State.edgeIds, hset, List.flatten_append, List.flatten_cons, List.filter_append]
  rw [List.append_assoc]
  exact List.Perm.append_left _ List.perm_append_comm

/-- What holds of the counter, the map and the guards before the fork server starts. -/
structure State.Inv (env : Env) (s : State) : Prop where
  /-- A range is numbered as a whole. -/
  unnumbered : ∀ m ∈ s.modules, m.head? = some 0 → ∀ g ∈ m, g = 0
  nodup : s.edgeIds.Nodup
  bounds : ∀ g ∈ s.edgeIds, 5 ≤ g ∧ g ≤ s.finalLoc
  counter : s.edgeIds ≠ [] → s.finalLoc + 1 < 2 ^ 32
  mapSize : s.shm → ∀ g ∈ s.edgeIds, g < s.mapSize
  settled : s.shm → s.Settled env
  first_le : s.firstFinalLoc ≤ s.finalLoc + 1
  early_of_shm : s.shm → s.early
  second_of_early : s.early → s.second
  shm_of_early : s.early → env.disableInstrumentation = false → s.shm
  early_of_edgeIds : s.edgeIds ≠ [] → env.dumpMapSize = false → s.early

theorem State.Inv.start (env : Env) (selective : Bool) : (State.start env selective).Inv env where
  unnumbered := by simp [State.start]
  nodup := List.nodup_nil
  bounds := by simp [State.start, State.edgeIds]
  counter := fun h => (h rfl).elim
  mapSize := nofun
  settled := nofun
  first_le := Nat.zero_le _
  early_of_shm := nofun
  second_of_early := nofun
  shm_of_early := nofun
  early_of_edgeIds := fun h => (h rfl).elim

/-! ## The constructors of the runtime -/

/-- The second preset may note the counter, and sets nothing else but the areas. -/
theorem State.autoSecond_eq (env : Env) (sys : Syscall → Bool) (s : State) :
    ∃ first area dummy,
      s.autoSecond env sys =
          { s with second := true, firstFinalLoc := first, area := area, dummy := dummy } ∧
        (first = s.firstFinalLoc ∨ s.second = false ∧ first = u32 (s.finalLoc + 1)) := by
  unfold State.autoSecond
  split
  · next hsecond => exact ⟨s.firstFinalLoc, s.area, s.dummy, by rw [← hsecond], .inl rfl⟩
  · next hsecond =>
    dsimp only
    split_ifs
    · exact ⟨_, _, _, rfl, .inl rfl⟩
    · exact ⟨_, _, _, rfl, .inr ⟨Bool.not_eq_true _ ▸ hsecond, rfl⟩⟩
    · exact ⟨_, _, _, rfl, .inr ⟨Bool.not_eq_true _ ▸ hsecond, rfl⟩⟩
    · exact ⟨_, _, _, rfl, .inl rfl⟩

theorem State.autoSecond_frame (env : Env) (sys : Syscall → Bool) (s : State) :
    (s.autoSecond env sys).modules = s.modules ∧
      (s.autoSecond env sys).forkserver = s.forkserver ∧
      (s.autoSecond env sys).second = true := by
  obtain ⟨first, area, dummy, heq, -⟩ := State.autoSecond_eq env sys s
  rw [heq]
  exact ⟨rfl, rfl, rfl⟩

theorem State.Inv.autoSecond (h : s.Inv env) : (s.autoSecond env sys).Inv env := by
  obtain ⟨first, area, dummy, heq, hfirst⟩ := State.autoSecond_eq env sys s
  rw [heq]
  refine ⟨h.unnumbered, h.nodup, h.bounds, h.counter, h.mapSize, fun hshm => ?_, ?_,
    h.early_of_shm, fun _ => rfl, h.shm_of_early, h.early_of_edgeIds⟩
  · rcases hfirst with rfl | ⟨hsecond, -⟩
    · exact h.settled hshm
    · exact absurd (h.second_of_early (h.early_of_shm hshm)) (by simp [hsecond])
  · rcases hfirst with rfl | ⟨-, rfl⟩
    · exact h.first_le
    · exact Nat.mod_le _ _

theorem State.mapShm_frame (h : s.mapShm env sys = some t) :
    t.modules = s.modules ∧ t.forkserver = s.forkserver := by
  cases hshm : s.shm with
  | true =>
    rw [State.mapShm, if_pos hshm] at h
    obtain rfl := Option.some.inj h
    exact ⟨rfl, rfl⟩
  | false => exact ⟨(State.mapShm_maps h hshm).modules, (State.mapShm_maps h hshm).forkserver⟩

theorem State.autoEarly_frame (h : s.autoEarly env sys = some t) :
    t.modules = s.modules ∧ t.forkserver = s.forkserver := by
  unfold State.autoEarly at h
  split_ifs at h
  · obtain rfl := Option.some.inj h
    exact ⟨rfl, rfl⟩
  · obtain rfl := Option.some.inj h
    exact ⟨rfl, rfl⟩
  · exact State.mapShm_frame (s := { s with early := true }) h

theorem State.Inv.autoEarly (h : s.Inv env) (hsecond : s.second = true)
    (ht : s.autoEarly env sys = some t) : t.Inv env ∧ t.early = true := by
  unfold State.autoEarly at ht
  split_ifs at ht with hearly hdisable
  · obtain rfl := Option.some.inj ht
    exact ⟨h, hearly⟩
  · obtain rfl := Option.some.inj ht
    refine ⟨⟨h.unnumbered, h.nodup, h.bounds, h.counter, h.mapSize, h.settled, h.first_le,
      fun _ => rfl, fun _ => hsecond, fun _ hd => ?_, fun _ _ => rfl⟩, rfl⟩
    exact absurd hdisable (by simp [hd])
  · have hshm : s.shm = false := by
      by_contra hshm
      exact hearly (h.early_of_shm (Bool.not_eq_false _ ▸ hshm))
    have hmaps := State.mapShm_maps ht hshm
    -- a process with numbered guards would have been asked to print the size of its map
    have hnone : s.edgeIds = [] := by
      by_contra hne
      rcases hmaps.goesOn with hzero | hdump
      · obtain ⟨g, hg⟩ := List.exists_mem_of_ne_nil _ hne
        have hbounds := h.bounds g hg
        have : s.finalLoc = 0 := hzero
        omega
      · exact hearly (h.early_of_edgeIds hne hdump)
    have hids : t.edgeIds = [] := by
      rw [State.edgeIds, hmaps.modules]
      exact hnone
    have hle := State.le_sizeWithoutShm env { s with early := true }
    have hfirst := h.first_le
    refine ⟨⟨?_, ?_, ?_, ?_, ?_, fun _ => hmaps.settled hfirst, ?_, fun _ => hmaps.early,
      fun _ => hmaps.second.trans hsecond, fun _ _ => hmaps.shm, fun _ _ => hmaps.early⟩,
      hmaps.early⟩
    · rw [hmaps.modules]
      exact h.unnumbered
    · rw [hids]
      exact List.nodup_nil
    · simp [hids]
    · exact fun hne => (hne hids).elim
    · simp [hids]
    · rw [hmaps.firstFinalLoc, hmaps.finalLoc]
      exact hfirst.trans (Nat.add_le_add_right hle 1)

theorem State.beforeGuards_frame (h : s.beforeGuards env sys = some t) :
    t.modules = s.modules ∧ t.forkserver = s.forkserver := by
  unfold State.beforeGuards at h
  split_ifs at h
  · obtain rfl := Option.some.inj h
    exact ⟨rfl, rfl⟩
  · obtain ⟨hmodules, hforkserver, -⟩ := State.autoSecond_frame env sys s
    rw [← hmodules, ← hforkserver]
    exact State.autoEarly_frame h

theorem State.Inv.beforeGuards (h : s.Inv env) (ht : s.beforeGuards env sys = some t) :
    t.Inv env ∧ (env.dumpMapSize = false → t.early = true) := by
  unfold State.beforeGuards at ht
  split_ifs at ht with hdump
  · obtain rfl := Option.some.inj ht
    exact ⟨h, fun hd => absurd hdump (by simp [hd])⟩
  · obtain ⟨hinv, hearly⟩ := h.autoSecond.autoEarly (State.autoSecond_frame env sys s).2.2 ht
    exact ⟨hinv, fun _ => hearly⟩

/-! ## Numbering keeps the invariant -/

/-- What the map does when the counter has moved on. -/
structure State.Follows (s t : State) : Prop where
  finalLoc : t.finalLoc = s.finalLoc
  mapSize : s.shm = true → t.mapSize = u32 (s.finalLoc + 1)
  firstFinalLoc : t.firstFinalLoc = s.firstFinalLoc
  shm : t.shm = s.shm
  early : t.early = s.early
  second : t.second = s.second
  forkserver : t.forkserver = s.forkserver
  modules : t.modules = s.modules

theorem State.followCounter_follows (hsettled : s.shm = true → s.Settled env)
    (h : s.followCounter env sys = some t) : s.Follows t := by
  cases hshm : s.shm with
  | false =>
    rw [State.followCounter, hshm, if_neg Bool.false_ne_true] at h
    obtain rfl := Option.some.inj h
    exact ⟨rfl, by simp [hshm], rfl, rfl, rfl, rfl, rfl, rfl⟩
  | true =>
    rw [State.followCounter, hshm, if_pos rfl, Option.map_eq_some_iff] at h
    obtain ⟨u, hu, rfl⟩ := h
    split_ifs at hu
    · have hunmap : s.unmapShm = { s with area := s.dummy, shm := false } := if_pos hshm
      have hmaps := State.mapShm_maps hu (by rw [hunmap])
      have hloc : u.finalLoc = s.finalLoc := by
        rw [hmaps.finalLoc, State.Settled.sizeWithoutShm, hunmap]
        rw [hunmap]
        exact hsettled hshm
      refine ⟨hloc, fun _ => by rw [hloc], ?_, hmaps.shm.trans hshm.symm, ?_, ?_, ?_, ?_⟩
      · exact hmaps.firstFinalLoc.trans (by rw [hunmap])
      · exact hmaps.early.trans (by rw [hunmap])
      · exact hmaps.second.trans (by rw [hunmap])
      · exact hmaps.forkserver.trans (by rw [hunmap])
      · exact hmaps.modules.trans (by rw [hunmap])
    · obtain rfl := Option.some.inj hu
      exact ⟨rfl, fun _ => rfl, rfl, rfl, rfl, rfl, rfl, rfl⟩

theorem State.le_firstLoc (s : State) : s.finalLoc ≤ s.firstLoc ∧ 4 ≤ s.firstLoc := by
  unfold State.firstLoc
  split_ifs <;> omega

/-- A range that is numbered within the 32 bits of the counter keeps the invariant. -/
theorem State.Inv.number (h : s.Inv env) (hearly : env.dumpMapSize = false → s.early = true)
    {module : ℕ} {guards : List ℕ} (hguards : s.modules[module]? = some guards)
    (hzero : ∀ g ∈ guards, g = 0) {keep : List Bool}
    (hfits : s.firstLoc + (true :: keep).count true + 1 < 2 ^ 32)
    (ht : State.followCounter env sys
      { s with finalLoc := (numberGuards (true :: keep) s.firstLoc).2 } = some t) :
    ({ t with modules := t.modules.set module (numberGuards (true :: keep) s.firstLoc).1 }).Inv
      env := by
  obtain ⟨hloc, hnumbers⟩ := numberGuards_spec (true :: keep) s.firstLoc (by omega)
  have hhead := numberGuards_true_head keep s.firstLoc (by
    rw [List.count_cons_self] at hfits
    omega)
  obtain ⟨hle, hfour⟩ := s.le_firstLoc
  set numbered := (numberGuards (true :: keep) s.firstLoc).1
  set count := (true :: keep).count true
  have hfollows := State.followCounter_follows (s := { s with finalLoc := _ }) (fun hshm hid => by
    obtain ⟨hval, hfirst⟩ := h.settled hshm hid
    dsimp only
    rw [hloc]
    exact ⟨fun hv => (hval hv).trans (by omega), fun hv => (hfirst hv).trans (by omega)⟩) ht
  have hfinal : t.finalLoc = s.firstLoc + count := hfollows.finalLoc.trans hloc
  have hperm := edgeIds_set (s := { t with modules := s.modules }) hguards hzero numbered
  rw [hnumbers] at hperm
  have hids : ({ t with modules := s.modules } : State).edgeIds = s.edgeIds := rfl
  rw [hids] at hperm
  have hmem : ∀ g, g ∈ ({ t with modules := t.modules.set module numbered } : State).edgeIds ↔
      g ∈ s.edgeIds ∨ s.firstLoc + 1 ≤ g ∧ g < s.firstLoc + 1 + count := fun g => by
    rw [hfollows.modules, hperm.mem_iff, List.mem_append, List.mem_range'_1]
  have hbounds : ∀ g ∈ ({ t with modules := t.modules.set module numbered } : State).edgeIds,
      5 ≤ g ∧ g ≤ t.finalLoc := fun g hg => by
    rcases (hmem g).mp hg with hold | hnew
    · have := h.bounds g hold
      omega
    · omega
  constructor
  · intro m hm hm0
    rw [hfollows.modules] at hm
    rcases List.mem_or_eq_of_mem_set hm with hold | rfl
    · exact h.unnumbered m hold hm0
    · exact (hhead hm0).elim
  · rw [hfollows.modules, hperm.nodup_iff, List.nodup_append']
    refine ⟨h.nodup, List.nodup_range', ?_⟩
    intro g hold hnew
    have hb := h.bounds g hold
    have hn := List.mem_range'_1.mp hnew
    omega
  · exact hbounds
  · intro _
    dsimp only
    omega
  · intro hshm g hg
    have hsize : t.mapSize = u32 (t.finalLoc + 1) := by
      rw [hfollows.finalLoc]
      exact hfollows.mapSize (hfollows.shm ▸ hshm)
    have hb := (hbounds g hg).2
    dsimp only
    rw [hsize, u32_of_lt (by omega)]
    omega
  · intro hshm hid
    obtain ⟨hval, hfirst⟩ := h.settled (hfollows.shm ▸ hshm) hid
    have hff : t.firstFinalLoc = s.firstFinalLoc := hfollows.firstFinalLoc
    dsimp only
    rw [hff]
    exact ⟨fun hv => (hval hv).trans (by omega), fun hv => (hfirst hv).trans (by omega)⟩
  · have hff : t.firstFinalLoc = s.firstFinalLoc := hfollows.firstFinalLoc
    have hf := h.first_le
    dsimp only
    omega
  · exact fun hshm => hfollows.early.trans (h.early_of_shm (hfollows.shm ▸ hshm))
  · exact fun he => hfollows.second.trans (h.second_of_early (hfollows.early ▸ he))
  · exact fun he hd => hfollows.shm.trans (h.shm_of_early (hfollows.early ▸ he) hd)
  · exact fun _ hd => hfollows.early.trans (hearly hd)

/-! ## Runs of the process -/

/-- The call numbers its range within the 32 bits of the counter, and leaves room for the size of
the map. -/
def State.Fits (env : Env) (s : State) : Action → Prop
  | .guardInit module draws sys => ∀ rest u ratio,
      s.modules[module]? = some (0 :: rest) → s.beforeGuards env sys = some u →
        env.ratio = some ratio →
        u.firstLoc + (true :: keptGuards ratio draws rest.length).count true + 1 < 2 ^ 32
  | _ => True

/-- A call for a range that is empty or has been numbered only runs the constructors. A call for
another range numbers it, or comes after the fork server has started. -/
theorem State.traceGuardInit_cases {draws : ℕ → ℕ} {guards guards' : List ℕ}
    (h : s.traceGuardInit env sys draws guards = some (guards', t)) :
    ∃ u, s.beforeGuards env sys = some u ∧
      (guards' = guards ∧ t = u ∨
        ∃ rest ratio, guards = 0 :: rest ∧ env.ratio = some ratio ∧
          (u.forkserver = true ∧ t.forkserver = true ∨
            u.forkserver = false ∧
              guards' = (numberGuards (true :: keptGuards ratio draws rest.length) u.firstLoc).1 ∧
              State.followCounter env sys
                { u with finalLoc := (numberGuards
                    (true :: keptGuards ratio draws rest.length) u.firstLoc).2 } = some t)) := by
  rw [State.traceGuardInit, Option.bind_eq_bind, Option.bind_eq_some_iff] at h
  obtain ⟨u, hu, h⟩ := h
  refine ⟨u, hu, ?_⟩
  cases guards with
  | nil =>
    obtain ⟨rfl, rfl⟩ := Prod.mk.inj (Option.some.inj h)
    exact .inl ⟨rfl, rfl⟩
  | cons guard rest =>
    dsimp only at h
    by_cases hguard : guard = 0
    · subst hguard
      rw [if_neg (not_not.mpr rfl), Option.bind_eq_bind, Option.bind_eq_some_iff] at h
      obtain ⟨ratio, hratio, h⟩ := h
      refine .inr ⟨rest, ratio, rfl, hratio, ?_⟩
      cases hfs : u.forkserver with
      | true =>
        rw [if_pos hfs] at h
        split_ifs at h
        obtain ⟨-, rfl⟩ := Prod.mk.inj (Option.some.inj h)
        exact .inl ⟨rfl, hfs⟩
      | false =>
        rw [if_neg (by rw [hfs]; exact Bool.false_ne_true), Option.bind_eq_some_iff] at h
        obtain ⟨v, hv, h⟩ := h
        obtain ⟨rfl, rfl⟩ := Prod.mk.inj (Option.some.inj h)
        exact .inr ⟨rfl, rfl, hfs ▸ hv⟩
    · rw [if_pos hguard] at h
      obtain ⟨rfl, rfl⟩ := Prod.mk.inj (Option.some.inj h)
      exact .inl ⟨rfl, rfl⟩

/-- The fork server does not stop. -/
theorem State.forkserver_of_step {a : Action} (h : s.step env a = some t)
    (hfs : t.forkserver = false) : s.forkserver = false := by
  cases a with
  | load guards =>
    obtain rfl := Option.some.inj h
    exact hfs
  | guardInit module draws sys =>
    simp only [State.step, Option.bind_eq_some_iff, Option.map_eq_some_iff] at h
    obtain ⟨guards, -, ⟨guards', u⟩, hu, rfl⟩ := h
    obtain ⟨v, hv, hcases⟩ := State.traceGuardInit_cases hu
    rw [← (State.beforeGuards_frame hv).2]
    rcases hcases with ⟨-, rfl⟩ | ⟨rest, ratio, -, -, ⟨-, hu'⟩ | ⟨hv', -, -⟩⟩
    · exact hfs
    · exact absurd hfs (by simp [hu'])
    · exact hv'
  | autoSecond sys =>
    obtain rfl := Option.some.inj h
    rw [← hfs]
    exact (State.autoSecond_frame env sys s).2.1.symm
  | autoEarly sys =>
    rw [State.step] at h
    split_ifs at h
    rw [← (State.autoEarly_frame h).2]
    exact hfs
  | manualInit =>
    rw [State.step] at h
    split_ifs at h
    obtain rfl := Option.some.inj h
    unfold State.manualInit at hfs
    dsimp only at hfs
    split_ifs at hfs <;> exact hfs

theorem State.Inv.step {a : Action} (h : s.Inv env) (hfs : s.forkserver = false)
    (hfits : s.Fits env a) (ht : s.step env a = some t) : t.Inv env := by
  cases a with
  | load guards =>
    obtain rfl := Option.some.inj ht
    have hids : ({ s with modules := s.modules ++ [List.replicate guards 0] } : State).edgeIds =
        s.edgeIds := by
      simp [State.edgeIds]
    refine ⟨fun m hm hm0 => ?_, hids ▸ h.nodup, hids ▸ h.bounds, hids ▸ h.counter,
      hids ▸ h.mapSize, h.settled, h.first_le, h.early_of_shm, h.second_of_early,
      h.shm_of_early, hids ▸ h.early_of_edgeIds⟩
    rcases List.mem_append.mp hm with hold | hnew
    · exact h.unnumbered m hold hm0
    · obtain rfl := List.mem_singleton.mp hnew
      exact fun g hg => List.eq_of_mem_replicate hg
  | guardInit module draws sys =>
    simp only [State.step, Option.bind_eq_some_iff, Option.map_eq_some_iff] at ht
    obtain ⟨guards, hguards, ⟨guards', u⟩, hu, rfl⟩ := ht
    obtain ⟨v, hv, hcases⟩ := State.traceGuardInit_cases hu
    obtain ⟨hmodules, hforkserver⟩ := State.beforeGuards_frame hv
    obtain ⟨hinv, hearly⟩ := h.beforeGuards hv
    rw [← hmodules] at hguards
    rcases hcases with ⟨rfl, rfl⟩ | ⟨rest, ratio, rfl, hratio, ⟨hv', -⟩ | ⟨-, rfl, hfollow⟩⟩
    · obtain ⟨hlt, rfl⟩ := List.getElem?_eq_some_iff.mp hguards
      rw [List.set_getElem_self hlt]
      exact hinv
    · exact absurd hfs (by simp [← hforkserver, hv'])
    · refine hinv.number hearly hguards ?_ ?_ hfollow
      · exact hinv.unnumbered _ (List.mem_of_getElem? hguards) rfl
      · exact hfits rest v ratio (hmodules ▸ hguards) hv hratio
  | autoSecond sys =>
    obtain rfl := Option.some.inj ht
    exact h.autoSecond
  | autoEarly sys =>
    rw [State.step] at ht
    split_ifs at ht with hsecond
    exact (h.autoEarly hsecond ht).1
  | manualInit =>
    rw [State.step] at ht
    split_ifs at ht
    obtain rfl := Option.some.inj ht
    unfold State.manualInit
    dsimp only
    split_ifs <;> exact { h with }

/-- The process sets up a coverage map: its instrumentation is not disabled, and if it is only to
print the size of the map, its constructor has come to that. -/
def State.SetsUpMap (env : Env) (s : State) : Prop :=
  env.disableInstrumentation = false ∧ (env.dumpMapSize = true → s.early = true)

/-- In every run before the fork server starts, in which no call numbers its range past the 32
bits of the counter, the guards of all modules that stand for an edge are pairwise distinct and at
least `5`, and the map has a place for each. -/
theorem run_edgeIds {selective : Bool} {actions : List Action}
    (hrun : run (State.step env) (State.start env selective) actions = some s)
    (hfs : s.forkserver = false)
    (hfits : Along (State.step env) (State.Fits env) (State.start env selective) actions) :
    s.edgeIds.Nodup ∧ (∀ g ∈ s.edgeIds, 5 ≤ g) ∧
      (s.SetsUpMap env → ∀ g ∈ s.edgeIds, g < s.mapSize) := by
  have hinv : s.forkserver = false → s.Inv env :=
    run_invariant_along (P := fun s => s.forkserver = false → s.Inv env)
      (fun s a t hs hfit hstep hfs =>
        (hs (State.forkserver_of_step hstep hfs)).step (State.forkserver_of_step hstep hfs) hfit
          hstep)
      (fun _ => State.Inv.start env selective) hfits hrun
  refine ⟨(hinv hfs).nodup, fun g hg => ((hinv hfs).bounds g hg).1, fun ⟨hd, hdump⟩ g hg => ?_⟩
  refine (hinv hfs).mapSize ((hinv hfs).shm_of_early ?_ hd) g hg
  cases hd' : env.dumpMapSize with
  | true => exact hdump hd'
  | false => exact (hinv hfs).early_of_edgeIds (List.ne_nil_of_mem hg) hd'

/-- A process without a shared map, and the greatest map size in its environment. -/
def greatestMapEnv : Env := { shmId := false, mapSize := some (-1) }

/-- Two modules are loaded, and the guards of both are numbered. -/
def twoModules : List Action :=
  [.load 7, .guardInit 0 (fun _ => 0) (fun _ => true),
    .load 6, .guardInit 1 (fun _ => 0) (fun _ => true)]

/-- The greatest map size raises the counter to its last value. The guards of both modules start
again from zero, share their numbers and have no place in the map. -/
theorem greatestMap_shares_edgeIds :
    ∃ s, run (State.step greatestMapEnv) (State.start greatestMapEnv false) twoModules = some s ∧
      s.forkserver = false ∧ s.SetsUpMap greatestMapEnv ∧
      s.modules = [[0, 1, 2, 3, 4, 5, 6], [0, 1, 2, 3, 4, 5]] ∧ s.mapSize = 0 ∧
      ¬s.edgeIds.Nodup := by
  refine ⟨_, rfl, rfl, ⟨rfl, fun _ => rfl⟩, rfl, rfl, ?_⟩
  decide

/-- A process with a shared map whose modules keep every other guard. -/
def halfRatioEnv : Env := { shmId := true, instRatio := some 50 }

/-- A module of three guards, which keeps its first and its last. -/
def threeGuards : List Action :=
  [.load 3, .guardInit 0 (fun i => 60 - 20 * i) (fun _ => true)]

/-- The process after these steps. -/
def threeGuardsState : State :=
  { finalLoc := 6, mapSize := 7, shm := true, second := true, early := true, area := .other,
    modules := [[5, 0, 6]] }

theorem run_edgeIds_threeGuards :
    threeGuardsState.edgeIds.Nodup ∧ (∀ g ∈ threeGuardsState.edgeIds, 5 ≤ g) ∧
      ∀ g ∈ threeGuardsState.edgeIds, g < threeGuardsState.mapSize := by
  have hrun : run (State.step halfRatioEnv) (State.start halfRatioEnv false) threeGuards =
      some threeGuardsState := by
    decide
  obtain ⟨hnodup, hge, hlt⟩ := run_edgeIds hrun rfl ⟨trivial, fun t ht => by
    obtain rfl := Option.some.inj ht
    refine ⟨fun rest u ratio hm hu hratio => ?_, fun t ht => trivial⟩
    obtain rfl : [0, 0] = rest := by simpa [State.start, List.replicate] using hm
    obtain rfl := Option.some.inj hu
    obtain rfl := Option.some.inj hratio
    decide⟩
  exact ⟨hnodup, hge, hlt ⟨rfl, fun _ => rfl⟩⟩

end AflPlusPlus.EdgeGuards
