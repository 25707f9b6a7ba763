import AflPlusPlus.ControlFlow

/-!
# Networks that compute an instruction

A function and the function in which a network has replaced one instruction run in lock
step outside the block of the instruction; their registers agree below the registers the
network defines.
-/

namespace AflPlusPlus.ControlFlow

def Agree (n : ℕ) (ρ ρ' : Env) : Prop := ∀ j < n, ρ j = ρ' j

namespace Operand

@[simp] theorem value_reg (ρ : Env) (id : ℕ) : (reg id).value ρ = ρ id := rfl

@[simp] theorem value_const (ρ : Env) (v : ℕ) : (const v).value ρ = v := rfl

@[simp] theorem below_reg (n id : ℕ) : (reg id).Below n ↔ id < n := Iff.rfl

@[simp] theorem below_const (n v : ℕ) : (const v).Below n := trivial

theorem value_agree {n : ℕ} {ρ ρ' : Env} (h : Agree n ρ ρ') {o : Operand} (ho : o.Below n) :
    o.value ρ = o.value ρ' := by
  cases o with
  | reg id => exact h id ho
  | const v => rfl

theorem Below.mono {n m : ℕ} (h : n ≤ m) {o : Operand} (ho : o.Below n) : o.Below m := by
  cases o with
  | reg id => exact Nat.lt_of_lt_of_le ho h
  | const v => trivial

/-- Registers from `n` on do not matter to an operand below `n`. -/
theorem value_update {n : ℕ} {o : Operand} (ho : o.Below n) (k : ℕ) (hk : n ≤ k) (ρ : Env)
    (v : ℕ) : o.value (Function.update ρ k v) = o.value ρ := by
  cases o with
  | reg id =>
    have hne : id ≠ k := by
      have : id < n := ho
      omega
    simp [value, hne]
  | const c => rfl

end Operand

section Agree

variable {n : ℕ}

theorem Agree.update {ρ ρ' : Env} (h : Agree n ρ ρ') (i v : ℕ) :
    Agree n (Function.update ρ i v) (Function.update ρ' i v) := by
  intro j hj
  by_cases hji : j = i
  · simp [hji]
  · simp [hji, h j hj]

theorem Agree.assign {ρ ρ' : Env} (h : Agree n ρ ρ') (vs : List (ℕ × ℕ)) :
    Agree n (assign ρ vs) (assign ρ' vs) := by
  induction vs generalizing ρ ρ' with
  | nil => exact h
  | cons v vs ih => exact ih (h.update v.1 v.2)

theorem Terminator.exec_agree {κ : Type*} {ρ ρ' : Env} (h : Agree n ρ ρ') {t : Terminator κ}
    (ht : ∀ o ∈ t.operands, o.Below n) : t.exec ρ = t.exec ρ' := by
  cases t with
  | br l => rfl
  | condBr c l l' => simp [exec, Operand.value_agree h (ht c (by simp [operands]))]
  | ret o => simp [exec, Operand.value_agree h (ht o (by simp [operands]))]

theorem Terminator.mem_targets_of_exec {κ : Type*} {ρ : Env} {t : Terminator κ} {l : κ}
    (h : t.exec ρ = .inl l) : l ∈ t.targets := by
  cases t with
  | br l' =>
    simp only [exec, Sum.inl.injEq] at h
    simp [targets, h]
  | condBr c l₁ l₂ =>
    simp only [exec, Sum.inl.injEq] at h
    split at h <;> simp [targets, h]
  | ret o => simp [exec] at h

theorem Terminator.exec_map {κ κ' : Type*} (f : κ → κ') (ρ : Env) (t : Terminator κ) :
    (t.map f).exec ρ = (t.exec ρ).map f id := by
  cases t with
  | br l => rfl
  | condBr c l l' =>
    simp only [map, exec, Sum.map_inl]
    split <;> rfl
  | ret o => rfl

end Agree

theorem lookup_map_of_injOn {κ κ' : Type*} [DecidableEq κ] [DecidableEq κ'] (f : κ → κ') (p : κ)
    (es : List (κ × Operand)) (h : ∀ e ∈ es, f e.1 = f p → e.1 = p) :
    (es.map fun e => (f e.1, e.2)).lookup (f p) = es.lookup p := by
  induction es with
  | nil => rfl
  | cons e es ih =>
    have ih := ih fun e he => h e (List.mem_cons_of_mem _ he)
    rw [List.map_cons, List.lookup_cons, List.lookup_cons, ih]
    by_cases hp : p = e.1
    · rw [beq_iff_eq.mpr hp, beq_iff_eq.mpr (congrArg f hp)]
    · have hf : f p ≠ f e.1 := fun heq => hp (h e List.mem_cons_self heq.symm).symm
      rw [beq_eq_false_iff_ne.mpr hp, beq_eq_false_iff_ne.mpr hf]

/-- Renaming the predecessors of the phi nodes one to one, and registers they do not read,
change nothing. -/
theorem phiValues_map {κ κ' : Type*} [DecidableEq κ] [DecidableEq κ'] {ρ ρ' : Env}
    (f : κ → κ') (prev : Option κ) (φs : List (Phi κ))
    (hn : ∀ φ ∈ φs, ∀ e ∈ φ.incoming, e.2.value ρ = e.2.value ρ')
    (hf : ∀ φ ∈ φs, ∀ e ∈ φ.incoming, ∀ p ∈ prev, f e.1 = f p → e.1 = p) :
    phiValues (prev.map f) ρ' (φs.map (Phi.map f)) = phiValues prev ρ φs := by
  induction φs with
  | nil => rfl
  | cons φ φs ih =>
    have ih := ih (fun φ hφ => hn φ (List.mem_cons_of_mem _ hφ))
      (fun φ hφ => hf φ (List.mem_cons_of_mem _ hφ))
    have hφ : (φ.map f).value (prev.map f) ρ' = φ.value prev ρ := by
      cases prev with
      | none => rfl
      | some p =>
        have hl := lookup_map_of_injOn f p φ.incoming
          fun e he => hf φ List.mem_cons_self e he p rfl
        simp only [Phi.value, Phi.map, Option.map_some, Option.bind_some, hl]
        cases ho : φ.incoming.lookup p with
        | none => rfl
        | some o =>
          have hmem : (p, o) ∈ φ.incoming := by
            obtain ⟨l₁, l₂, hl, -⟩ := List.lookup_eq_some_iff.mp ho
            simp [hl]
          simp [hn φ List.mem_cons_self _ hmem]
    rw [List.map_cons, phiValues, phiValues, hφ, ih]
    rfl

section Run

variable {ι σ : Type*} (eval : ι → List ℕ → σ → ℕ × σ)

theorem execBody_append (s : Env × σ) (xs ys : List (Instr ι)) :
    execBody eval s (xs ++ ys) = execBody eval (execBody eval s xs) ys :=
  List.foldl_append

@[simp] theorem execBody_nil (s : Env × σ) : execBody eval s [] = s := rfl

@[simp] theorem execBody_cons (s : Env × σ) (I : Instr ι) (body : List (Instr ι)) :
    execBody eval s (I :: body) = execBody eval (execInstr eval s I) body := rfl

@[simp] theorem enter_nil {κ : Type*} [DecidableEq κ] (prev : Option κ) (ρ : Env) :
    enter [] prev ρ = some ρ := rfl

/-- Related states: equal memories, registers that agree below `n`. -/
def Related (n : ℕ) (s s' : Env × σ) : Prop := Agree n s.1 s'.1 ∧ s.2 = s'.2

theorem execBody_related {n : ℕ} {s s' : Env × σ} (h : Related n s s') (body : List (Instr ι))
    (hb : ∀ I ∈ body, ∀ a ∈ I.args, a.Below n) :
    Related n (execBody eval s body) (execBody eval s' body) := by
  induction body generalizing s s' with
  | nil => exact h
  | cons I body ih =>
    refine ih ?_ fun J hJ => hb J (List.mem_cons_of_mem _ hJ)
    have hargs : I.args.map (Operand.value s.1) = I.args.map (Operand.value s'.1) :=
      List.map_congr_left fun a ha => Operand.value_agree h.1 (hb I List.mem_cons_self a ha)
    simp only [Related, execInstr, hargs, h.2, and_true]
    exact h.1.update _ _

/-- What remains to run from the end of the body of block `l`. -/
def leave (F : Func ι) (n l : ℕ) (s : Env × σ) : Option (ℕ × σ) :=
  match (F.blocks l).terminator.exec s.1 with
  | .inl k => run eval F n (some l) k s
  | .inr v => some (v, s.2)

theorem leave_of_exec {F : Func ι} {l k : ℕ} {s : Env × σ}
    (h : (F.blocks l).terminator.exec s.1 = .inl k) (n : ℕ) :
    leave eval F n l s = run eval F n (some l) k s := by
  rw [leave, h]

theorem run_succ (F : Func ι) (n : ℕ) (prev : Option ℕ) (l : ℕ) (s : Env × σ) :
    run eval F (n + 1) prev l s = (enter (F.blocks l).phis prev s.1).bind fun ρ =>
      leave eval F n l (execBody eval (ρ, s.2) (F.blocks l).body) := by
  rw [run]
  cases enter (F.blocks l).phis prev s.1 <;> rfl

theorem run_mono (F : Func ι) {n m : ℕ} (h : n ≤ m) {prev : Option ℕ} {l : ℕ} {s : Env × σ}
    {r : ℕ × σ} (hr : run eval F n prev l s = some r) : run eval F m prev l s = some r := by
  induction n generalizing m prev l s with
  | zero => simp [run] at hr
  | succ n ih =>
    obtain ⟨m, rfl⟩ : ∃ k, m = k + 1 := ⟨m - 1, by omega⟩
    rw [run_succ] at hr ⊢
    obtain ⟨ρ, hρ, hr⟩ := Option.bind_eq_some_iff.mp hr
    rw [hρ, Option.bind_some]
    unfold leave at hr ⊢
    split at hr
    · exact ih (by omega) hr
    · exact hr

theorem Returns.unique {F : Func ι} {s : Env × σ} {r r' : ℕ × σ} (h : Returns eval F s r)
    (h' : Returns eval F s r') : r = r' := by
  obtain ⟨n, hn⟩ := h
  obtain ⟨m, hm⟩ := h'
  have hn := run_mono eval F (Nat.le_max_left n m) hn
  have hm := run_mono eval F (Nat.le_max_right n m) hm
  exact Option.some.inj (hn.symm.trans hm)

end Run

/-- Two meanings of the instructions that agree on those of a function give it the same
runs. -/
theorem run_congr {ι σ : Type*} {eval eval' : ι → List ℕ → σ → ℕ × σ} {F : Func ι}
    (hF : ∀ l < F.nextLabel, ∀ k ∈ (F.blocks l).terminator.targets, k < F.nextLabel)
    (h : ∀ l < F.nextLabel, ∀ I ∈ (F.blocks l).body, eval I.op = eval' I.op) {n : ℕ}
    {prev : Option ℕ} {l : ℕ} {s : Env × σ} (hl : l < F.nextLabel) :
    run eval F n prev l s = run eval' F n prev l s := by
  induction n generalizing prev l s with
  | zero => rfl
  | succ n ih =>
    have hbody : ∀ t, execBody eval t (F.blocks l).body = execBody eval' t (F.blocks l).body :=
      fun t => List.foldl_ext _ _ _ fun s I hI => by simp only [execInstr, h l hl I hI]
    rw [run_succ, run_succ]
    congr 1
    funext ρ
    rw [hbody]
    unfold leave
    split
    · rename_i k hk
      exact ih (hF l hl k (Terminator.mem_targets_of_exec hk))
    · rfl

/-! ## Walking through a network -/

namespace Place

@[simp] theorem head_beq_inner (k : ℕ) : (head == inner k) = false := rfl

@[simp] theorem inner_beq_head (k : ℕ) : (inner k == head) = false := rfl

@[simp] theorem inner_beq_inner (j k : ℕ) : (inner j == inner k) = (j == k) := by
  by_cases h : j = k <;> simp [h]

@[simp] theorem within_head (n : ℕ) : head.Within n := trivial

@[simp] theorem within_exit (n : ℕ) : exit.Within n := trivial

@[simp] theorem within_inner (n k : ℕ) : (inner k).Within n ↔ k < n := Iff.rfl

end Place

namespace Region

variable {ι σ : Type*} (eval : ι → List ℕ → σ → ℕ × σ) (R : Region ι) (n : ℕ) (p : Place)
  (s : Env × σ)

@[simp] theorem walk_br_exit : R.walk eval (n + 1) p (.br .exit) s = some (p, s) := rfl

@[simp] theorem walk_condBr (c : Operand) (t f : Place) :
    R.walk eval (n + 1) p (.condBr c t f) s =
      R.walk eval (n + 1) p (.br (if c.value s.1 ≠ 0 then t else f)) s := rfl

theorem walk_br_inner {k : ℕ} {B : Block ι Place} (hB : R.blocks[k]? = some B) {ρ : Env}
    (hρ : enter B.phis (some p) s.1 = some ρ) :
    R.walk eval (n + 1) p (.br (.inner k)) s =
      R.walk eval n (.inner k) B.terminator (execBody eval (ρ, s.2) B.body) := by
  simp [walk, Terminator.exec, hB, hρ]

variable {eval R n p s} {t : Terminator Place}

theorem walk_exit (h : t.exec s.1 = .inl .exit) : R.walk eval (n + 1) p t s = some (p, s) := by
  simp [walk, h]

theorem walk_inner {k : ℕ} {B : Block ι Place} (h : t.exec s.1 = .inl (.inner k))
    (hB : R.blocks[k]? = some B) {ρ : Env} (hρ : enter B.phis (some p) s.1 = some ρ) :
    R.walk eval (n + 1) p t s =
      R.walk eval n (.inner k) B.terminator (execBody eval (ρ, s.2) B.body) := by
  simp [walk, h, hB, hρ]

theorem walk_body {k : ℕ} {body : List (Instr ι)} {t' : Terminator Place}
    (h : t.exec s.1 = .inl (.inner k)) (hB : R.blocks[k]? = some ⟨[], body, t'⟩) {s' : Env × σ}
    (hs' : execBody eval s body = s') :
    R.walk eval (n + 1) p t s = R.walk eval n (.inner k) t' s' := by
  rw [← hs']
  exact walk_inner h hB rfl

theorem result_of_walk {o : Operand} {s' : Env × σ} {v : ℕ}
    (h : R.walk eval n .head R.terminator (execBody eval s R.head) = some (p, s'))
    (ho : R.incoming.lookup p = some o) (hv : o.value s'.1 = v) :
    R.result eval n s = some (v, s') := by
  simp [result, h, Phi.value, ho, hv]

variable (eval)

theorem assign_frame {n : ℕ} {vs : List (ℕ × ℕ)} (h : ∀ v ∈ vs, n ≤ v.1) (ρ : Env) :
    Agree n (assign ρ vs) ρ := by
  induction vs generalizing ρ with
  | nil => exact fun _ _ => rfl
  | cons v vs ih =>
    intro j hj
    have hv := h v List.mem_cons_self
    have hne : j ≠ v.1 := by omega
    refine (ih (fun w hw => h w (List.mem_cons_of_mem _ hw)) _ j hj).trans ?_
    simp [hne]

theorem phiValues_ids {κ : Type*} [DecidableEq κ] {prev : Option κ} {ρ : Env} {φs : List (Phi κ)}
    {vs : List (ℕ × ℕ)} (h : phiValues prev ρ φs = some vs) : vs.map Prod.fst = φs.map Phi.id := by
  induction φs generalizing vs with
  | nil =>
    obtain rfl : [] = vs := Option.some.inj h
    rfl
  | cons φ φs ih =>
    rw [phiValues] at h
    obtain ⟨v, -, h⟩ := Option.bind_eq_some_iff.mp h
    obtain ⟨ws, hws, h⟩ := Option.bind_eq_some_iff.mp h
    obtain rfl := Option.some.inj h
    simp [ih hws]

theorem enter_frame {κ : Type*} [DecidableEq κ] {n : ℕ} {φs : List (Phi κ)}
    (hφs : ∀ φ ∈ φs, n ≤ φ.id) {prev : Option κ} {ρ ρ' : Env} (h : enter φs prev ρ = some ρ') :
    Agree n ρ' ρ := by
  obtain ⟨vs, hvs, rfl⟩ := Option.map_eq_some_iff.mp h
  refine assign_frame (fun v hv => ?_) ρ
  have hid : v.1 ∈ φs.map Phi.id := phiValues_ids hvs ▸ List.mem_map_of_mem hv
  obtain ⟨φ, hφ, heq⟩ := List.mem_map.mp hid
  exact heq ▸ hφs φ hφ

theorem execBody_frame {n : ℕ} {body : List (Instr ι)} (h : ∀ I ∈ body, n ≤ I.id)
    (s : Env × σ) : Agree n (execBody eval s body).1 s.1 := by
  induction body generalizing s with
  | nil => exact fun _ _ => rfl
  | cons I body ih =>
    intro j hj
    have hI := h I List.mem_cons_self
    have hne : j ≠ I.id := by omega
    refine (ih (fun J hJ => h J (List.mem_cons_of_mem _ hJ)) _ j hj).trans ?_
    simp [execInstr, hne]

variable {eval}

theorem walk_frame {n : ℕ} (hR : R.Wf n) {fuel : ℕ} {p q : Place} {t : Terminator Place}
    {s' : Env × σ} (h : R.walk eval fuel p t s = some (q, s')) : Agree n s'.1 s.1 := by
  induction fuel generalizing p t s with
  | zero => simp [walk] at h
  | succ fuel ih =>
    rw [walk] at h
    split at h
    · obtain ⟨-, rfl⟩ : p = q ∧ s = s' := by simpa using h
      exact fun _ _ => rfl
    · split at h
      · simp at h
      · rename_i B hB
        obtain ⟨hphi, hbody⟩ := hR.block_fresh B (List.mem_of_getElem? hB)
        split at h
        · simp at h
        · rename_i ρ hρ
          intro j hj
          have h₁ := ih h j hj
          have h₂ := execBody_frame eval hbody (ρ, s.2) j hj
          have h₃ := enter_frame hphi hρ j hj
          exact h₁.trans (h₂.trans h₃)
    · simp at h
    · simp at h

/-- A network leaves the registers of the function as they are. -/
theorem result_frame {n : ℕ} (hR : R.Wf n) {fuel v : ℕ} {s' : Env × σ}
    (h : R.result eval fuel s = some (v, s')) : Agree n s'.1 s.1 := by
  unfold result at h
  split at h
  · simp at h
  · rename_i q s₁ hwalk
    obtain ⟨v', -, heq⟩ := Option.map_eq_some_iff.mp h
    obtain ⟨-, rfl⟩ : v' = v ∧ s₁ = s' := by simpa using heq
    intro j hj
    exact (walk_frame hR hwalk j hj).trans (execBody_frame eval hR.head_fresh s j hj)

end Region

/-! ## The function with the network -/

section Replace

variable {ι : Type*} {F : Func ι} {i : ℕ} {I : Instr ι} {R : Region ι}

theorem Func.find_eq_some (h : F.find i = some I) :
    I.id = i ∧ (F.blocks (F.parent i)).body = F.before i ++ I :: F.after i := by
  obtain ⟨hid, pre, post, hbody, hpre⟩ := List.find?_eq_some_iff_append.mp h
  have hid : I.id = i := by simpa using hid
  have hpre : ∀ J ∈ pre, (!(J.id == i)) = true := by simpa using hpre
  refine ⟨hid, ?_⟩
  have htake : F.before i = pre := by
    rw [Func.before, hbody, List.takeWhile_append_of_pos hpre]
    simp [hid]
  have hdrop : F.after i = post := by
    rw [Func.after, hbody, List.dropWhile_append_of_pos hpre]
    simp [hid]
  rw [hbody, htake, hdrop]

theorem Func.Wf.parent_lt (hF : F.Wf) (h : F.find i = some I) : F.parent i < F.nextLabel := by
  by_contra hlt
  have hbody := (Func.find_eq_some h).2
  rw [hF.vacant _ (by omega)] at hbody
  simp at hbody

theorem Func.Wf.find_of_mem (hF : F.Wf) {l : ℕ} (hl : l < F.nextLabel)
    (hI : I ∈ (F.blocks l).body) : F.find I.id = some I := by
  have hnodup := hF.nodup l hl
  rw [Func.find, hF.parent_eq l hl I hI]
  obtain ⟨xs, ys, hbody⟩ := List.append_of_mem hI
  rw [hbody, List.map_append, List.nodup_append] at hnodup
  rw [hbody, List.find?_append, List.find?_eq_none.mpr]
  · simp
  · intro J hJ
    simpa using hnodup.2.2 _ (List.mem_map_of_mem hJ) _ List.mem_cons_self

theorem Func.Wf.find_below (hF : F.Wf) (h : F.find i = some I) :
    i < F.nextId ∧ ∀ a ∈ I.args, a.Below F.nextId := by
  have hblk := hF.block _ (hF.parent_lt h)
  obtain ⟨hid, hbody⟩ := Func.find_eq_some h
  have hmem : I ∈ (F.blocks (F.parent i)).body := by simp [hbody]
  exact ⟨hid ▸ hblk.id_lt I hmem, hblk.args I hmem⟩

@[simp] theorem replaceInst_nextId : (F.replaceInst i R).nextId = F.nextId + R.size := rfl

@[simp] theorem replaceInst_nextLabel :
    (F.replaceInst i R).nextLabel = F.nextLabel + 1 + R.blocks.length := rfl

theorem replaceInst_head : (F.replaceInst i R).blocks (F.parent i) =
    { phis := ((F.blocks (F.parent i)).redirect (F.parent i) F.nextLabel).phis
      body := F.before i ++ R.head
      terminator := R.terminator.map (Place.label (F.parent i) F.nextLabel) } := by
  simp [Func.replaceInst]

theorem replaceInst_other {l : ℕ} (hl : l < F.nextLabel) (hne : l ≠ F.parent i) :
    (F.replaceInst i R).blocks l = (F.blocks l).redirect (F.parent i) F.nextLabel := by
  simp [Func.replaceInst, hl, hne]

theorem replaceInst_exit (hp : F.parent i < F.nextLabel) :
    (F.replaceInst i R).blocks F.nextLabel =
    { phis := [Phi.map (Place.label (F.parent i) F.nextLabel) ⟨i, R.incoming⟩]
      body := F.after i
      terminator := (F.blocks (F.parent i)).terminator } := by
  simp [Func.replaceInst, Nat.ne_of_gt hp]

theorem replaceInst_inner (hp : F.parent i < F.nextLabel) {k : ℕ} {B : Block ι Place}
    (hk : R.blocks[k]? = some B) : (F.replaceInst i R).blocks (F.nextLabel + 1 + k) =
      B.map (Place.label (F.parent i) F.nextLabel) := by
  have h₁ : F.nextLabel + 1 + k ≠ F.parent i := by omega
  have h₂ : ¬F.nextLabel + 1 + k < F.nextLabel := by omega
  have h₃ : F.nextLabel + 1 + k ≠ F.nextLabel := by omega
  have h₄ : F.nextLabel + 1 + k - F.nextLabel - 1 = k := by omega
  simp only [Func.replaceInst, h₁, h₂, h₃, h₄, hk, if_false]

theorem replaceInst_vacant (hp : F.parent i < F.nextLabel) {l : ℕ}
    (hl : F.nextLabel + 1 + R.blocks.length ≤ l) : ((F.replaceInst i R).blocks l).body = [] := by
  have h₁ : l ≠ F.parent i := by omega
  have h₂ : ¬l < F.nextLabel := by omega
  have h₃ : l ≠ F.nextLabel := by omega
  have h₄ : R.blocks[l - F.nextLabel - 1]? = none := by
    rw [List.getElem?_eq_none_iff]
    omega
  simp only [Func.replaceInst, h₁, h₂, h₃, h₄, if_false]

/-- The edges of the network lead where its places say. -/
theorem leave_replaceInst {σ : Type*} (eval : ι → List ℕ → σ → ℕ × σ)
    (hp : F.parent i < F.nextLabel) {fuel : ℕ} {p q : Place} {t : Terminator Place}
    {s s' : Env × σ} (h : R.walk eval fuel p t s = some (q, s'))
    (ht : ((F.replaceInst i R).blocks (p.label (F.parent i) F.nextLabel)).terminator =
      t.map (Place.label (F.parent i) F.nextLabel)) :
    ∃ k, ∀ n, leave eval (F.replaceInst i R) (k + n) (p.label (F.parent i) F.nextLabel) s =
      run eval (F.replaceInst i R) n (some (q.label (F.parent i) F.nextLabel)) F.nextLabel s' := by
  induction fuel generalizing p t s with
  | zero => simp [Region.walk] at h
  | succ fuel ih =>
    rw [Region.walk] at h
    split at h
    · rename_i hexit
      obtain ⟨rfl, rfl⟩ : p = q ∧ s = s' := by simpa using h
      refine ⟨0, fun n => ?_⟩
      rw [Nat.zero_add]
      refine leave_of_exec eval ?_ n
      rw [ht, Terminator.exec_map, hexit]
      rfl
    · rename_i j hinner
      split at h
      · simp at h
      · rename_i B hB
        have hblock := replaceInst_inner (i := i) hp hB
        split at h
        · simp at h
        · rename_i ρ hρ
          obtain ⟨k, hk⟩ := ih h (by simp [Place.label, hblock, Block.map])
          have henter : enter ((F.replaceInst i R).blocks (F.nextLabel + 1 + j)).phis
              (some (p.label (F.parent i) F.nextLabel)) s.1 = some ρ := by
            rw [← hρ, hblock, enter, enter]
            congr 1
            exact phiValues_map _ (some p) _ (fun _ _ _ _ => rfl)
              fun _ _ _ _ _ _ heq => Place.label_injective hp heq
          have hexec :
              ((F.replaceInst i R).blocks (p.label (F.parent i) F.nextLabel)).terminator.exec s.1 =
                .inl (F.nextLabel + 1 + j) := by
            rw [ht, Terminator.exec_map, hinner]
            rfl
          refine ⟨k + 1, fun n => ?_⟩
          have hn : k + 1 + n = k + n + 1 := by omega
          rw [leave_of_exec eval hexec, hn, run_succ, henter, Option.bind_some, ← hk n, hblock]
          rfl
    · simp at h
    · simp at h

/-- The label under which phi nodes know the end of an old block. -/
def renamed (F : Func ι) (i l : ℕ) : ℕ := if l = F.parent i then F.nextLabel else l

theorem renamed_injOn {l l' : ℕ} (hl : l < F.nextLabel) (hl' : l' < F.nextLabel)
    (h : renamed F i l = renamed F i l') : l = l' := by
  unfold renamed at h
  split at h <;> split at h <;> omega

section Simulation

variable {σ : Type*} (eval : ι → List ℕ → σ → ℕ × σ)

/-- Entering an old block gives registers that still agree. -/
theorem enter_replaceInst (hF : F.Wf) {prev : Option ℕ} (hprev : ∀ p ∈ prev, p < F.nextLabel)
    {l : ℕ} (hl : l < F.nextLabel) {ρ ρ' ρ₁ : Env} (hρ : Agree F.nextId ρ ρ')
    (h : enter (F.blocks l).phis prev ρ = some ρ₁) :
    ∃ ρ₁', enter ((F.replaceInst i R).blocks l).phis (prev.map (renamed F i)) ρ' = some ρ₁' ∧
      Agree F.nextId ρ₁ ρ₁' := by
  obtain ⟨vs, hvs, rfl⟩ := Option.map_eq_some_iff.mp h
  refine ⟨assign ρ' vs, ?_, hρ.assign vs⟩
  have hphis : ((F.replaceInst i R).blocks l).phis =
      (F.blocks l).phis.map (Phi.map (renamed F i)) := by
    by_cases hb : l = F.parent i
    · subst hb
      rw [replaceInst_head]
      rfl
    · rw [replaceInst_other hl hb]
      rfl
  have hwf := hF.block l hl
  rw [enter, hphis, phiValues_map (ρ := ρ), hvs]
  · rfl
  · exact fun φ hφ e he => Operand.value_agree hρ (hwf.phi φ hφ e he).2
  · exact fun φ hφ e he p hp heq =>
      renamed_injOn (hwf.phi φ hφ e he).1 (hprev p hp) heq

/-- One pass through the network takes related states before the instruction to related
states after it. -/
theorem leave_head (hF : F.Wf) (hI : F.find i = some I) (hwf : R.Wf F.nextId)
    (hR : R.Computes eval I)
    {s s' : Env × σ} (hs : Related F.nextId s s') :
    ∃ k s₁, Related F.nextId (execInstr eval s I) s₁ ∧ ∀ n,
      leave eval (F.replaceInst i R) (k + n) (F.parent i) (execBody eval s' R.head) =
        leave eval (F.replaceInst i R) n F.nextLabel (execBody eval s₁ (F.after i)) := by
  have hp := hF.parent_lt hI
  obtain ⟨hid, hbody⟩ := Func.find_eq_some hI
  obtain ⟨fuel, v, s₂, hres, hv⟩ := hR s'
  have hframe := Region.result_frame hwf hres
  unfold Region.result at hres
  split at hres
  · simp at hres
  · rename_i q s₃ hwalk
    obtain ⟨v', hphi, heq⟩ := Option.map_eq_some_iff.mp hres
    obtain ⟨rfl, rfl⟩ : v' = v ∧ s₃ = s₂ := by simpa using heq
    obtain ⟨k, hk⟩ := leave_replaceInst (i := i) eval hp hwalk (by
      simp only [Place.label, replaceInst_head])
    refine ⟨k + 1, (Function.update s₃.1 i v', s₃.2), ?_, fun n => ?_⟩
    · have hargs : I.args.map (Operand.value s.1) = I.args.map (Operand.value s'.1) :=
        List.map_congr_left fun a ha => Operand.value_agree hs.1
          ((hF.block _ hp).args I (by simp [hbody]) a ha)
      have hval : eval I.op (I.args.map (Operand.value s.1)) s.2 = (v', s₃.2) := by
        rw [hargs, hs.2, hv]
      refine ⟨?_, by simp [execInstr, hval]⟩
      have hagree : Agree F.nextId s.1 s₃.1 := fun j hj => (hs.1 j hj).trans (hframe j hj).symm
      simpa [execInstr, hval, hid] using hagree.update i v'
    · have henter : enter ((F.replaceInst i R).blocks F.nextLabel).phis
          (some (q.label (F.parent i) F.nextLabel)) s₃.1 = some (Function.update s₃.1 i v') := by
        have hphis := @phiValues_map _ _ _ _ s₃.1 s₃.1
          (Place.label (F.parent i) F.nextLabel) (some q) [⟨i, R.incoming⟩]
          (fun _ _ _ _ => rfl) (fun _ _ _ _ _ _ heq => Place.label_injective hp heq)
        have hone : phiValues (some q) s₃.1 [⟨i, R.incoming⟩] = some [(i, v')] := by
          have : (⟨i, R.incoming⟩ : Phi Place).value (some q) s₃.1 = some v' := hphi
          simp [phiValues, this]
        rw [replaceInst_exit hp, enter]
        rw [hone] at hphis
        exact congrArg (Option.map (assign s₃.1)) hphis
      have hn : k + 1 + n = k + (n + 1) := by omega
      have hkn := hk (n + 1)
      rw [Place.label] at hkn
      rw [hn, hkn, run_succ, henter, Option.bind_some, replaceInst_exit hp]

theorem run_replaceInst (hF : F.Wf) (hI : F.find i = some I) (hwf : R.Wf F.nextId)
    (hR : R.Computes eval I)
    {n : ℕ} {prev : Option ℕ} {l : ℕ} {s s' : Env × σ} {r : ℕ × σ}
    (hprev : ∀ p ∈ prev, p < F.nextLabel) (hl : l < F.nextLabel) (hs : Related F.nextId s s')
    (h : run eval F n prev l s = some r) :
    ∃ n', run eval (F.replaceInst i R) n' (prev.map (renamed F i)) l s' = some r := by
  induction n generalizing prev l s s' with
  | zero => simp [run] at h
  | succ n ih =>
    rw [run_succ] at h
    obtain ⟨ρ, hρ, hleave⟩ := Option.bind_eq_some_iff.mp h
    obtain ⟨ρ', hρ', hagree⟩ := enter_replaceInst (i := i) (R := R) hF hprev hl hs.1 hρ
    have hblk := hF.block l hl
    have hent : Related F.nextId (ρ, s.2) (ρ', s'.2) := ⟨hagree, hs.2⟩
    have hexit : ∀ {t t' : Env × σ}, Related F.nextId t t' → leave eval F n l t = some r →
        ∀ l', l' = renamed F i l →
        ((F.replaceInst i R).blocks l').terminator = (F.blocks l).terminator →
        ∃ n', leave eval (F.replaceInst i R) n' l' t' = some r := by
      intro t t' ht hleave l' hl' hterm
      have hexec := Terminator.exec_agree ht.1 hblk.operands
      unfold leave at hleave
      split at hleave
      · rename_i k hk
        have hpred : ∀ p ∈ some l, p < F.nextLabel := by simpa using hl
        obtain ⟨n', hn'⟩ := ih hpred
          (hblk.targets k (Terminator.mem_targets_of_exec hk)) ht hleave
        refine ⟨n', ?_⟩
        rw [leave_of_exec eval (k := k) (by rw [hterm, ← hexec, hk]), hl']
        exact hn'
      · rename_i v hv
        refine ⟨0, ?_⟩
        rw [leave, hterm, ← hexec, hv, ← ht.2]
        exact hleave
    by_cases hb : l = F.parent i
    · subst hb
      have hbody := (Func.find_eq_some hI).2
      have hargs := hblk.args
      rw [hbody] at hleave hargs
      have hpre := execBody_related eval hent (F.before i)
        fun J hJ => hargs J (List.mem_append_left _ hJ)
      obtain ⟨k, s₁, hs₁, hk⟩ := leave_head eval hF hI hwf hR hpre
      have hpost := execBody_related eval hs₁ (F.after i)
        fun J hJ => hargs J (List.mem_append_right _ (List.mem_cons_of_mem _ hJ))
      rw [execBody_append] at hleave
      obtain ⟨n', hn'⟩ := hexit hpost hleave F.nextLabel (by simp [renamed])
        (by rw [replaceInst_exit hl])
      refine ⟨k + n' + 1, ?_⟩
      rw [run_succ, hρ', Option.bind_some, replaceInst_head, execBody_append, hk, hn']
    · have hblock := replaceInst_other (R := R) hl hb
      obtain ⟨n', hn'⟩ := hexit (execBody_related eval hent _ hblk.args) hleave l
        (by simp [renamed, hb]) (by rw [hblock]; rfl)
      refine ⟨n' + 1, ?_⟩
      rw [run_succ, hρ', Option.bind_some]
      rw [hblock]
      exact hn'

/-- A network that computes an instruction may replace it. -/
theorem replaceInst_refines (hF : F.Wf) (hI : F.find i = some I)
    (hwf : R.Wf F.nextId)
    (hR : R.Computes eval I) : Refines eval F (F.replaceInst i R) := by
  rintro s r ⟨n, hn⟩
  have hnone : ∀ p ∈ (none : Option ℕ), p < F.nextLabel := by simp
  exact run_replaceInst eval hF hI hwf hR hnone hF.entry ⟨fun _ _ => rfl, rfl⟩ hn

end Simulation

/-! ## What the new function still satisfies -/

theorem Block.Wf.mono {κ : Type*} {B : Block ι κ} {P Q : κ → Prop} {n m : ℕ} (h : B.Wf P n)
    (hPQ : ∀ l, P l → Q l) (hnm : n ≤ m) : B.Wf Q m where
  phi φ hφ e he := ⟨hPQ _ (h.phi φ hφ e he).1, (h.phi φ hφ e he).2.mono hnm⟩
  id_lt J hJ := Nat.lt_of_lt_of_le (h.id_lt J hJ) hnm
  args J hJ a ha := (h.args J hJ a ha).mono hnm
  operands o ho := (h.operands o ho).mono hnm
  targets l hl := hPQ l (h.targets l hl)

theorem Terminator.operands_map {κ κ' : Type*} (f : κ → κ') (t : Terminator κ) :
    (t.map f).operands = t.operands := by
  cases t <;> rfl

theorem Terminator.targets_map {κ κ' : Type*} (f : κ → κ') (t : Terminator κ) :
    (t.map f).targets = t.targets.map f := by
  cases t <;> rfl

theorem Block.Wf.map {κ κ' : Type*} [DecidableEq κ] {B : Block ι κ} {P : κ → Prop}
    {Q : κ' → Prop} {n : ℕ} (h : B.Wf P n) (f : κ → κ') (hf : ∀ l, P l → Q (f l)) :
    (B.map f).Wf Q n where
  phi := by
    intro φ hφ e he
    obtain ⟨ψ, hψ, rfl⟩ := List.mem_map.mp hφ
    obtain ⟨x, hx, rfl⟩ := List.mem_map.mp he
    exact ⟨hf _ (h.phi ψ hψ x hx).1, (h.phi ψ hψ x hx).2⟩
  id_lt := h.id_lt
  args := h.args
  operands o ho := h.operands o (by rwa [Block.map, Terminator.operands_map] at ho)
  targets := by
    intro l hl
    rw [Block.map, Terminator.targets_map] at hl
    obtain ⟨k, hk, rfl⟩ := List.mem_map.mp hl
    exact hf k (h.targets k hk)

theorem Block.Wf.redirect {B : Block ι ℕ} {n m b e : ℕ} (h : B.Wf (· < m) n) (he : e < m) :
    (B.redirect b e).Wf (· < m) n where
  phi := by
    intro φ hφ x hx
    obtain ⟨ψ, hψ, rfl⟩ := List.mem_map.mp hφ
    obtain ⟨y, hy, rfl⟩ := List.mem_map.mp hx
    obtain ⟨hlt, hbelow⟩ := h.phi ψ hψ y hy
    refine ⟨?_, hbelow⟩
    change (if y.1 = b then e else y.1) < m
    split <;> assumption
  id_lt := h.id_lt
  args := h.args
  operands := h.operands
  targets := h.targets

section Blocks

variable (hF : F.Wf) (hI : F.find i = some I)

include hF hI

/-- Where the instructions of the new function come from: they stood in the old function
and are not the replaced one, or they are new. -/
theorem mem_replaceInst {l : ℕ} {J : Instr ι} (hl : l < F.nextLabel + 1 + R.blocks.length)
    (hJ : J ∈ ((F.replaceInst i R).blocks l).body) :
    (l = F.parent i ∧ J ∈ F.before i) ∨ (l = F.parent i ∧ J ∈ R.head) ∨
    (l < F.nextLabel ∧ l ≠ F.parent i ∧ J ∈ (F.blocks l).body) ∨
    (l = F.nextLabel ∧ J ∈ F.after i) ∨
    ∃ k B, l = F.nextLabel + 1 + k ∧ R.blocks[k]? = some B ∧ J ∈ B.body := by
  have hp := hF.parent_lt hI
  by_cases hb : l = F.parent i
  · subst hb
    rw [replaceInst_head] at hJ
    rcases List.mem_append.mp hJ with hJ | hJ
    · exact .inl ⟨rfl, hJ⟩
    · exact .inr (.inl ⟨rfl, hJ⟩)
  · rcases Nat.lt_trichotomy l F.nextLabel with hlt | rfl | hgt
    · rw [replaceInst_other hlt hb] at hJ
      exact .inr (.inr (.inl ⟨hlt, hb, hJ⟩))
    · rw [replaceInst_exit hp] at hJ
      exact .inr (.inr (.inr (.inl ⟨rfl, hJ⟩)))
    · obtain ⟨k, rfl⟩ : ∃ k, l = F.nextLabel + 1 + k := ⟨l - F.nextLabel - 1, by omega⟩
      have hk := List.getElem?_eq_getElem (l := R.blocks) (i := k) (by omega)
      rw [replaceInst_inner hp hk] at hJ
      exact .inr (.inr (.inr (.inr ⟨k, _, rfl, hk, hJ⟩)))

theorem nodup_parts : ((F.before i ++ I :: F.after i).map Instr.id).Nodup := by
  rw [← (Func.find_eq_some hI).2]
  exact hF.nodup _ (hF.parent_lt hI)

theorem mem_before {J : Instr ι} (hJ : J ∈ F.before i) :
    J.id < F.nextId ∧ F.parent J.id = F.parent i ∧ J.id ≠ i := by
  have hp := hF.parent_lt hI
  obtain ⟨hid, hbody⟩ := Func.find_eq_some hI
  have hmem : J ∈ (F.blocks (F.parent i)).body := by simp [hbody, hJ]
  have hnodup := nodup_parts hF hI
  rw [List.map_append, List.nodup_append] at hnodup
  refine ⟨(hF.block _ hp).id_lt J hmem, hF.parent_eq _ hp J hmem, ?_⟩
  exact hnodup.2.2 J.id (List.mem_map_of_mem hJ) i (by simp [hid])

theorem mem_after {J : Instr ι} (hJ : J ∈ F.after i) :
    J.id < F.nextId ∧ F.parent J.id = F.parent i ∧ J.id ≠ i ∧
      (F.before i).find? (·.id == J.id) = none := by
  have hp := hF.parent_lt hI
  obtain ⟨hid, hbody⟩ := Func.find_eq_some hI
  have hmem : J ∈ (F.blocks (F.parent i)).body := by simp [hbody, hJ]
  have hnodup := nodup_parts hF hI
  rw [List.map_append, List.map_cons, List.nodup_append, List.nodup_cons, hid] at hnodup
  obtain ⟨-, ⟨hi, -⟩, hdisj⟩ := hnodup
  refine ⟨(hF.block _ hp).id_lt J hmem, hF.parent_eq _ hp J hmem, ?_, ?_⟩
  · intro heq
    have hmem := List.mem_map_of_mem (f := Instr.id) hJ
    rw [heq] at hmem
    exact hi hmem
  · rw [List.find?_eq_none]
    intro J' hJ' heq
    exact hdisj J'.id (List.mem_map_of_mem hJ') J.id
      (List.mem_cons_of_mem _ (List.mem_map_of_mem hJ)) (by simpa using heq)

/-- The instructions of the new function are the other instructions of the old one and those
of the network. -/
theorem mem_replaceInst_cases {l : ℕ} {J : Instr ι} (hl : l < (F.replaceInst i R).nextLabel)
    (hmem : J ∈ ((F.replaceInst i R).blocks l).body) :
    (∃ l < F.nextLabel, J ∈ (F.blocks l).body ∧ J.id ≠ i) ∨ J ∈ R.head ∨
      ∃ B ∈ R.blocks, J ∈ B.body := by
  have hp := hF.parent_lt hI
  have hbody := (Func.find_eq_some hI).2
  rcases mem_replaceInst hF hI hl hmem with ⟨rfl, hJ⟩ | ⟨rfl, hJ⟩ | ⟨hlt, hne, hJ⟩ |
    ⟨rfl, hJ⟩ | ⟨k, B, rfl, hB, hJ⟩
  · exact .inl ⟨_, hp, by simp [hbody, hJ], (mem_before hF hI hJ).2.2⟩
  · exact .inr (.inl hJ)
  · refine .inl ⟨l, hlt, hJ, fun heq => hne ?_⟩
    rw [← heq, hF.parent_eq l hlt J hJ]
  · exact .inl ⟨_, hp, by simp [hbody, hJ], (mem_after hF hI hJ).2.2.1⟩
  · exact .inr (.inr ⟨B, List.mem_of_getElem? hB, hJ⟩)

theorem replaceInst_block_wf (hR : R.Wf F.nextId) {l : ℕ}
    (hl : l < F.nextLabel + 1 + R.blocks.length) : ((F.replaceInst i R).blocks l).Wf
      (· < F.nextLabel + 1 + R.blocks.length) (F.nextId + R.size) := by
  have hp := hF.parent_lt hI
  obtain ⟨hid, hbody⟩ := Func.find_eq_some hI
  have hold : ∀ l < F.nextLabel, (F.blocks l).Wf (· < F.nextLabel + 1 + R.blocks.length)
      (F.nextId + R.size) :=
    fun l hl => (hF.block l hl).mono (fun _ _ => by omega) (by omega)
  have hplace : ∀ p : Place, p.Within R.blocks.length →
      p.label (F.parent i) F.nextLabel < F.nextLabel + 1 + R.blocks.length := by
    intro p hp
    cases p with
    | head => simp only [Place.label]; omega
    | exit => simp only [Place.label]; omega
    | inner k => exact Nat.add_lt_add_left hp _
  by_cases hb : l = F.parent i
  · subst hb
    have hwf := hold _ hp
    have hhead := hR.head.map (Q := (· < F.nextLabel + 1 + R.blocks.length)) _ hplace
    rw [replaceInst_head]
    refine ⟨(hwf.redirect (by omega)).phi, ?_, ?_, hhead.operands, hhead.targets⟩
    · intro J hJ
      rcases List.mem_append.mp hJ with hJ | hJ
      · exact hwf.id_lt J (by simp [hbody, hJ])
      · exact hhead.id_lt J hJ
    · intro J hJ
      rcases List.mem_append.mp hJ with hJ | hJ
      · exact hwf.args J (by simp [hbody, hJ])
      · exact hhead.args J hJ
  · rcases Nat.lt_trichotomy l F.nextLabel with hlt | rfl | hgt
    · rw [replaceInst_other hlt hb]
      exact (hold l hlt).redirect (by omega)
    · have hwf := hold _ hp
      rw [replaceInst_exit hp]
      refine ⟨?_, ?_, ?_, hwf.operands, hwf.targets⟩
      · intro φ hφ e he
        obtain rfl := List.mem_singleton.mp hφ
        obtain ⟨x, hx, rfl⟩ := List.mem_map.mp he
        exact ⟨hplace _ (hR.incoming x hx).1, (hR.incoming x hx).2⟩
      · exact fun J hJ => hwf.id_lt J (by simp [hbody, hJ])
      · exact fun J hJ => hwf.args J (by simp [hbody, hJ])
    · obtain ⟨k, rfl⟩ : ∃ k, l = F.nextLabel + 1 + k := ⟨l - F.nextLabel - 1, by omega⟩
      have hk : k < R.blocks.length := by omega
      rw [replaceInst_inner hp (List.getElem?_eq_getElem hk)]
      exact (hR.block _ (List.getElem_mem hk)).map _ hplace

end Blocks

/-- A register that the `k`-th block of a network defines is defined nowhere before. -/
theorem Region.Wf.parent_inner {n k : ℕ} (hR : R.Wf n) {B : Block ι Place}
    (hB : R.blocks[k]? = some B) {J : Instr ι} (hJ : J ∈ B.body) :
    R.head.find? (·.id == J.id) = none ∧
      R.blocks.findIdx (fun B => (B.body.find? (·.id == J.id)).isSome) = k := by
  have hnodup := hR.nodup
  rw [List.map_append, List.nodup_append] at hnodup
  obtain ⟨-, hblocks, hdisj⟩ := hnodup
  have hmem : J.id ∈ (R.blocks.flatMap Block.body).map Instr.id :=
    List.mem_map_of_mem (List.mem_flatMap.mpr ⟨B, List.mem_of_getElem? hB, hJ⟩)
  constructor
  · rw [List.find?_eq_none]
    intro J' hJ' heq
    exact hdisj J'.id (List.mem_map_of_mem hJ') J.id hmem (by simpa using heq)
  · obtain ⟨hk, rfl⟩ := List.getElem?_eq_some_iff.mp hB
    rw [List.map_flatMap, List.nodup_flatMap] at hblocks
    rw [List.findIdx_eq hk]
    refine ⟨List.find?_isSome.mpr ⟨J, hJ, by simp⟩, fun j hj => ?_⟩
    have hsep := List.pairwise_iff_getElem.mp hblocks.2 j k (by omega) hk hj
    rw [← Bool.not_eq_true, List.find?_isSome]
    rintro ⟨J', hJ', heq⟩
    have heq : J'.id = J.id := by simpa using heq
    exact hsep (heq ▸ List.mem_map_of_mem hJ') (List.mem_map_of_mem hJ)

theorem replaceInst_wf (hF : F.Wf) (hI : F.find i = some I) (hR : R.Wf F.nextId) :
    (F.replaceInst i R).Wf where
  entry := by
    rw [replaceInst_nextLabel]
    omega
  vacant := fun l hl => replaceInst_vacant (hF.parent_lt hI) hl
  block := fun l hl => replaceInst_block_wf hF hI hR hl
  parent_eq := by
    intro l hl J hmem
    rcases mem_replaceInst hF hI hl hmem with ⟨rfl, hJ⟩ | ⟨rfl, hJ⟩ | ⟨hlt, hne, hJ⟩ |
      ⟨rfl, hJ⟩ | ⟨k, B, rfl, hB, hJ⟩
    · obtain ⟨hlt, hparent, -⟩ := mem_before hF hI hJ
      have hfind : (F.before i).find? (·.id == J.id) ≠ none := by
        rw [Ne, List.find?_eq_none]
        exact fun h => h J hJ (by simp)
      simp only [Func.replaceInst, hlt, hparent, hfind, if_true, if_false, and_false]
    · have hge : ¬J.id < F.nextId := by
        have := hR.head_fresh J hJ
        omega
      have hfind : (R.head.find? (·.id == J.id)).isSome = true :=
        List.find?_isSome.mpr ⟨J, hJ, by simp⟩
      simp only [Func.replaceInst, hge, hfind, if_true, if_false]
    · have hlt' := (hF.block l hlt).id_lt J hJ
      have hparent := hF.parent_eq l hlt J hJ
      simp only [Func.replaceInst, hlt', hparent, hne, false_and, if_true, if_false]
    · obtain ⟨hlt, hparent, -, hfind⟩ := mem_after hF hI hJ
      simp only [Func.replaceInst, hlt, hparent, hfind, and_self, if_true]
    · have hge : ¬J.id < F.nextId := by
        have := (hR.block_fresh B (List.mem_of_getElem? hB)).2 J hJ
        omega
      obtain ⟨hhead, hidx⟩ := hR.parent_inner hB hJ
      simp only [Func.replaceInst, hge, hhead, hidx, Option.isSome_none, Bool.false_eq_true,
        if_false]
  nodup := by
    intro l hl
    have hp := hF.parent_lt hI
    have hparts := nodup_parts hF hI
    have hregion := hR.nodup
    rw [List.map_append, List.nodup_append] at hparts hregion
    rw [replaceInst_nextLabel] at hl
    by_cases hb : l = F.parent i
    · subst hb
      rw [replaceInst_head, List.map_append, List.nodup_append]
      refine ⟨hparts.1, hregion.1, fun x hx y hy => ?_⟩
      obtain ⟨J, hJ, rfl⟩ := List.mem_map.mp hx
      obtain ⟨K, hK, rfl⟩ := List.mem_map.mp hy
      have := (mem_before hF hI hJ).1
      have := hR.head_fresh K hK
      omega
    · rcases Nat.lt_trichotomy l F.nextLabel with hlt | rfl | hgt
      · rw [replaceInst_other hlt hb]
        exact hF.nodup l hlt
      · rw [replaceInst_exit hp]
        exact (List.nodup_cons.mp hparts.2.1).2
      · obtain ⟨k, rfl⟩ : ∃ k, l = F.nextLabel + 1 + k := ⟨l - F.nextLabel - 1, by omega⟩
        have hk := List.getElem?_eq_getElem (l := R.blocks) (i := k) (by omega)
        rw [replaceInst_inner hp hk]
        have hblocks := hregion.2.1
        rw [List.map_flatMap, List.nodup_flatMap] at hblocks
        exact hblocks.1 _ (List.mem_of_getElem? hk)

/-- The other instructions are still there. -/
theorem replaceInst_find_old (hF : F.Wf) (hI : F.find i = some I) {j : ℕ} {J : Instr ι}
    (hj : j < F.nextId) (hne : j ≠ i) (hJ : F.find j = some J) :
    (F.replaceInst i R).find j = some J := by
  have hp := hF.parent_lt hI
  obtain ⟨hid, hbody⟩ := Func.find_eq_some hI
  by_cases hb : F.parent j = F.parent i
  · rw [Func.find, hb, hbody, List.find?_append] at hJ
    cases hpre : (F.before i).find? (·.id == j) with
    | none =>
      have hparent : (F.replaceInst i R).parent j = F.nextLabel := by
        simp only [Func.replaceInst, hj, hb, hpre, and_self, if_true]
      have hIj : (I.id == j) = false := by simp [hid, Ne.symm hne]
      rw [Func.find, hparent, replaceInst_exit hp]
      rwa [hpre, Option.none_or, List.find?_cons_of_neg (by simp [hIj])] at hJ
    | some J' =>
      have hparent : (F.replaceInst i R).parent j = F.parent i := by
        simp only [Func.replaceInst, hj, hb, hpre, reduceCtorEq, and_false, if_true, if_false]
      rw [Func.find, hparent, replaceInst_head, List.find?_append, hpre]
      rwa [hpre] at hJ
  · have hparent : (F.replaceInst i R).parent j = F.parent j := by
      simp [Func.replaceInst, hj, hb]
    rw [Func.find, hparent, replaceInst_other (hF.parent_lt hJ) hb]
    exact hJ

theorem findSome?_eq_findIdx {α β : Type*} (f : α → Option β) (xs : List α) :
    xs.findSome? f = (xs[xs.findIdx fun x => (f x).isSome]?).bind f := by
  induction xs with
  | nil => rfl
  | cons x xs ih =>
    rw [List.findSome?_cons, List.findIdx_cons]
    cases hx : f x with
    | none => simpa [hx] using ih
    | some y => simp [hx]

/-- The instructions of the network can be looked up. -/
theorem replaceInst_find_new (hF : F.Wf) (hI : F.find i = some I) {j : ℕ} (hj : F.nextId ≤ j) :
    (F.replaceInst i R).find j = R.find j := by
  have hp := hF.parent_lt hI
  have hlt : ¬j < F.nextId := by omega
  cases hhead : R.head.find? (·.id == j) with
  | some J =>
    have hparent : (F.replaceInst i R).parent j = F.parent i := by
      simp only [Func.replaceInst, hlt, hhead, Option.isSome_some, if_true, if_false]
    have hpre : (F.before i).find? (·.id == j) = none := by
      rw [List.find?_eq_none]
      intro J hJ
      have hid := (hF.block _ hp).id_lt J (by simp [(Func.find_eq_some hI).2, hJ])
      have : J.id ≠ j := by omega
      simpa using this
    rw [Func.find, hparent, replaceInst_head, List.find?_append, hpre, hhead, Region.find, hhead]
    rfl
  | none =>
    have hparent : (F.replaceInst i R).parent j = F.nextLabel + 1 +
        R.blocks.findIdx fun B => (B.body.find? (·.id == j)).isSome := by
      simp only [Func.replaceInst, hlt, hhead, Option.isSome_none, Bool.false_eq_true, if_false]
    rw [Func.find, hparent, Region.find, hhead, Option.none_or, findSome?_eq_findIdx]
    cases hB : R.blocks[R.blocks.findIdx fun B => (B.body.find? (·.id == j)).isSome]? with
    | some B =>
      rw [replaceInst_inner hp hB]
      rfl
    | none =>
      have hlen := List.getElem?_eq_none_iff.mp hB
      rw [replaceInst_vacant hp (by omega)]
      rfl

end Replace

end AflPlusPlus.ControlFlow
