import PortableFS.Restore.Mode

/-!
# Calls before the bootstrap

`vcs/internal/restoremode/mode.go:275` (`EnsureHydrated`), `:331` (`Write`), `:387` (`Truncate`),
`:618` (`UserMutation`). Each call checks on its own whether the mode has INFO. `Truncate` does
not check; a call without bytes and a call for an unbound identity skip the check; and a
bootstrap that is tried again after it called the volume corrupt may succeed. In every history
without these, no call before the bootstrap reaches its `apply` or panics, and after a corrupt
bootstrap none ever does.
-/

namespace PortableFS.Restore

/-- The call is for a bound file, names bytes if it is about bytes, and is no truncate. -/
def Call.Checked (cfg : Config) : Call → Prop
  | .ensureHydrated id _ length => cfg.bindings id ≠ none ∧ 0 < length
  | .write id op => cfg.bindings id ≠ none ∧ op.lo < op.hi
  | .truncate _ _ => False
  | .userMutation id => cfg.bindings id ≠ none
  | .drain _ => True

/-- The operation neither starts an unchecked call before the bootstrap nor completes the
bootstrap of a volume that was called corrupt. -/
def Op.Gated (cfg : Config) (s : Machine) : Op → Prop
  | .start _ call => s.initialized = false → call.Checked cfg
  | .bootstrap reply =>
    s.initialized = false → s.health = .corrupt → (s.bootstrap cfg reply).initialized = false
  | .crash _ => False
  | _ => True

/-- From one machine to another by gated operations. -/
inductive Machine.GatedRun (cfg : Config) (A : Archive) (s : Machine) : Machine → Prop where
  | refl : GatedRun cfg A s s
  | next {s' : Machine} (h : GatedRun cfg A s s') (op : Op) (hop : op.Gated cfg s') :
      GatedRun cfg A s (s'.next cfg A op)

/-- The call of a finished thread was refused. Drain workers start with the bootstrap. -/
def Thread.Refused (th : Thread) : Prop :=
  th.prog = [] ∧ (th.error = some .blocked ∨ th.error = some .corrupt ∨ ∃ key, th.call = .drain key)

/-- The mode before its bootstrap: nothing ran, and every call was refused. -/
structure Machine.Closed (s : Machine) : Prop where
  initialized : s.initialized = false
  converged : s.converged = false
  map : s.map = none
  ran : s.ran = []
  panicked : s.panicked = false
  refused : ∀ t th, s.threads t = some th → th.Refused

namespace Machine

variable {cfg : Config} {A : Archive} {s : Machine}

section

variable (h : s.Closed)
include h

private theorem Closed.withHealth (health : Health) : Closed { s with health := health } :=
  { h with }

private theorem Closed.keysForRange (entry : Entry) (offset length : Nat) :
    s.keysForRange entry offset length = .error .blocked := by
  unfold Machine.keysForRange
  rw [h.initialized]
  rfl

variable {call : Call}

private theorem Closed.program (hcall : call.Checked cfg) :
    s.program cfg call = .error .blocked ∨ s.program cfg call = .error .corrupt ∨
      (s.program cfg call = .ok [] ∧ ∃ key, call = .drain key) := by
  cases call with
  | ensureHydrated id offset length =>
    obtain ⟨hbound, hlength⟩ := hcall
    obtain ⟨entry, hentry⟩ := Option.ne_none_iff_exists'.mp hbound
    have hstart : ¬(s.converged = true ∨ length = 0) := by
      rw [h.converged]
      simp only [Bool.false_eq_true, false_or]
      omega
    unfold Machine.program
    dsimp only
    rw [if_neg hstart]
    unfold contentError
    rw [if_neg (by rw [h.converged]; exact Bool.false_ne_true)]
    cases s.health with
    | blocked => exact .inl rfl
    | corrupt => exact .inr (.inl rfl)
    | healthy =>
      left
      dsimp only
      rw [hentry]
      dsimp only
      rw [h.keysForRange]
      rfl
  | write id op =>
    obtain ⟨hbound, hlength⟩ := hcall
    obtain ⟨entry, hentry⟩ := Option.ne_none_iff_exists'.mp hbound
    left
    unfold Machine.program
    dsimp only
    rw [if_neg (by rw [h.converged]; exact Bool.false_ne_true), if_neg (by omega), hentry]
    dsimp only
    rw [h.keysForRange]
    rfl
  | truncate _ newSize => exact absurd hcall id
  | userMutation id =>
    obtain ⟨entry, hentry⟩ := Option.ne_none_iff_exists'.mp hcall
    left
    unfold Machine.program
    dsimp only
    rw [if_neg (by rw [h.converged]; exact Bool.false_ne_true), hentry]
    dsimp only
    rw [h.initialized]
    rfl
  | drain key =>
    right
    right
    refine ⟨?_, key, rfl⟩
    unfold Machine.program
    dsimp only
    rw [if_neg (by rw [h.initialized]; simp)]

private theorem Closed.withThread (t : Tid) {th : Thread} (hth : th.Refused) :
    Closed { s with threads := Function.update s.threads t (some th) } := by
  refine { h with refused := ?_ }
  intro u th' hu
  change Function.update s.threads t (some th) u = some th' at hu
  by_cases hut : u = t
  · subst hut
    rw [Function.update_self] at hu
    exact Option.some.inj hu ▸ hth
  · rw [Function.update_of_ne hut] at hu
    exact h.refused u th' hu

private theorem Closed.start (t : Tid) (hcall : call.Checked cfg) :
    (s.start cfg t call).Closed := by
  unfold Machine.start
  split
  · exact h
  rcases h.program hcall with hp | hp | ⟨hp, key, hkey⟩
  · rw [hp]
    exact h.withThread t ⟨rfl, .inl rfl⟩
  · rw [hp]
    exact h.withThread t ⟨rfl, .inr (.inl rfl)⟩
  · rw [hp]
    exact h.withThread t ⟨rfl, .inr (.inr ⟨key, hkey⟩)⟩

private theorem Closed.step (t : Tid) (env : Env) : s.step A t env = s := by
  unfold Machine.step
  split
  · rfl
  · next th hth =>
    rw [(h.refused t th hth).1]

private theorem Closed.bootstrap (reply : Except RestoreError InfoPage) :
    (s.bootstrap cfg reply).Closed ∨ (s.bootstrap cfg reply).initialized = true := by
  unfold Machine.bootstrap
  rw [if_neg (by rw [h.initialized, h.converged]; simp)]
  cases reply with
  | error error => exact .inl (h.withHealth _)
  | ok info =>
    dsimp only
    cases openInfo cfg s info with
    | error fault => exact .inl (h.withHealth _)
    | ok m => exact .inr rfl

private theorem Closed.next {op : Op} (hop : op.Gated cfg s) :
    (s.next cfg A op).Closed ∨ (s.next cfg A op).initialized = true := by
  cases op with
  | start t call => exact .inl (h.start t (hop h.initialized))
  | step t env =>
    left
    change (s.step A t env).Closed
    rw [h.step]
    exact h
  | bootstrap reply => exact h.bootstrap reply
  | health reply =>
    left
    change (s.healthCheck reply).Closed
    unfold healthCheck
    rw [if_neg (by rw [h.initialized]; simp)]
    exact h
  | converge =>
    left
    change s.converge.Closed
    unfold Machine.converge
    rw [h.map]
    exact h
  | unlink | fsync => exact .inl { h with }
  | crash keep => exact absurd hop id

end

private theorem closed_materialized : (materialized A).Closed :=
  ⟨rfl, rfl, rfl, rfl, rfl, fun _ _ h => absurd h (Option.some_ne_none _).symm⟩

variable {op : Op}

private theorem initialized_next (h : s.initialized = true) (hop : op.Gated cfg s) :
    (s.next cfg A op).initialized = true := by
  cases op with
  | start t call => exact (sameMode_start cfg s t call).initialized.trans h
  | step t env => exact (sameMode_step A s t env).initialized.trans h
  | bootstrap reply =>
    change (s.bootstrap cfg reply).initialized = true
    unfold Machine.bootstrap
    rw [if_pos (.inl h)]
    exact h
  | health reply =>
    change (s.healthCheck reply).initialized = true
    unfold healthCheck
    split
    · split <;> exact h
    · exact h
  | converge =>
    change s.converge.initialized = true
    unfold Machine.converge
    split
    · exact h
    · split <;> exact h
  | unlink entry => exact h
  | fsync entry => exact h
  | crash keep => exact absurd hop id

/-- A history of gated operations leaves the mode closed until its bootstrap completes. -/
theorem GatedRun.closed {s' : Machine} (h : GatedRun cfg A s s') (hs : s.Closed)
    (hi : s'.initialized = false) : s'.Closed := by
  induction h with
  | refl => exact hs
  | @next s₁ h op hop ih =>
    by_cases h₁ : s₁.initialized = true
    · rw [initialized_next h₁ hop] at hi
      exact absurd hi.symm Bool.false_ne_true
    · rcases (ih (Bool.eq_false_of_not_eq_true h₁)).next hop with hc | hc
      · exact hc
      · rw [hc] at hi
        exact absurd hi.symm Bool.false_ne_true

private theorem corrupt_next (hi : s.initialized = false) (hc : s.Closed)
    (hcorrupt : s.health = .corrupt) (hop : op.Gated cfg s) :
    (s.next cfg A op).initialized = false ∧ (s.next cfg A op).health = .corrupt := by
  cases op with
  | start t call =>
    change (s.start cfg t call).initialized = false ∧ (s.start cfg t call).health = .corrupt
    refine ⟨(sameMode_start cfg s t call).initialized.trans hi, ?_⟩
    unfold Machine.start
    split
    · exact hcorrupt
    · split <;> exact hcorrupt
  | step t env =>
    change (s.step A t env).initialized = false ∧ (s.step A t env).health = .corrupt
    rw [hc.step]
    exact ⟨hi, hcorrupt⟩
  | bootstrap reply =>
    refine ⟨hop hi hcorrupt, ?_⟩
    change (s.bootstrap cfg reply).health = .corrupt
    unfold Machine.bootstrap
    rw [if_neg (by rw [hc.initialized, hc.converged]; simp)]
    cases reply with
    | error error =>
      change s.health.note error = .corrupt
      rw [hcorrupt]
      rfl
    | ok info =>
      dsimp only
      cases openInfo cfg s info with
      | error fault =>
        change s.health.note (.boot fault) = .corrupt
        rw [hcorrupt]
        rfl
      | ok m =>
        change s.health.clear = .corrupt
        rw [hcorrupt]
        rfl
  | health reply =>
    change (s.healthCheck reply).initialized = false ∧ (s.healthCheck reply).health = .corrupt
    unfold healthCheck
    rw [if_neg (by rw [hi]; simp)]
    exact ⟨hi, hcorrupt⟩
  | converge =>
    change s.converge.initialized = false ∧ s.converge.health = .corrupt
    unfold Machine.converge
    rw [hc.map]
    exact ⟨hi, hcorrupt⟩
  | unlink | fsync => exact ⟨hi, hcorrupt⟩
  | crash keep => exact absurd hop id

/-- Before the bootstrap of a restored volume has completed, no call ran its `apply` or panicked,
and every call was refused; and once the volume was called corrupt, no later call of a gated
history runs its `apply` either. -/
theorem refused_before_bootstrap (h : GatedRun cfg A (materialized A) s)
    (hi : s.initialized = false) :
    s.panicked = false ∧ s.ran = [] ∧ (∀ t th, s.threads t = some th → th.Refused) ∧
      (s.health = .corrupt → ∀ s', GatedRun cfg A s s' →
        s'.initialized = false ∧ s'.panicked = false ∧ s'.ran = [] ∧
          ∀ t th, s'.threads t = some th → th.Refused) := by
  have hclosed := h.closed closed_materialized hi
  refine ⟨hclosed.panicked, hclosed.ran, hclosed.refused, ?_⟩
  intro hcorrupt s' hs'
  have hlater : s'.initialized = false ∧ s'.health = .corrupt := by
    induction hs' with
    | refl => exact ⟨hi, hcorrupt⟩
    | @next s₁ h₁ op hop ih => exact corrupt_next ih.1 (h₁.closed hclosed ih.1) ih.2 hop
  have hclosed' := hs'.closed hclosed hlater.1
  exact ⟨hlater.1, hclosed'.panicked, hclosed'.ran, hclosed'.refused⟩

end Machine

/-- A file of eight bytes in two stored chunks of four. -/
def twoChunks : Archive where
  chunkSize := 4
  order := [⟨0, 0⟩, ⟨0, 1⟩]
  size := fun _ => 8
  extents := fun _ => [⟨0, [1, 2, 3, 4]⟩]
  chunkSize_pos := by decide
  order_nodup := by decide
  start_lt := by decide
  inside := by decide

/-- A mode with that file as its only binding. -/
def oneFile : Config where
  volumeID := "v"
  sealedEpoch := 1
  attempt := "a"
  maxStoredChunks := 2
  entries := 1
  digest := Vector.replicate 32 0
  bindings := fun id => if id = 0 then some 0 else none
  bindings_lt := by
    intro id entry h
    split at h
    · rw [← Option.some.inj h]
      decide
    · cases h

/-- The page that the hydrator serves for it. -/
def twoChunksInfo : InfoPage := ⟨1, "v", 1, "a", 4, 1, 2, 2, [⟨0, 0⟩, ⟨0, 1⟩]⟩

private def steps (n : Nat) : List Op := List.replicate n (.step 0 .ok)

/-- Before the bootstrap, shortening a file to a part of a chunk divides by the chunk size zero,
and emptying it runs the caller's `apply` and then uses the missing map; and a bootstrap that
succeeds after one that failed as corrupt lets a mutation run although the volume stays corrupt. -/
theorem unchecked_before_bootstrap :
    let cut := (Machine.materialized twoChunks).run oneFile twoChunks
      (.start 0 (.truncate 0 6) :: steps 1)
    let emptied := (Machine.materialized twoChunks).run oneFile twoChunks
      (.start 0 (.truncate 0 0) :: steps 5)
    let corrupt := (Machine.materialized twoChunks).run oneFile twoChunks
      [.bootstrap (.error .corrupt)]
    let retried := corrupt.run oneFile twoChunks
      (.bootstrap (.ok twoChunksInfo) :: .start 0 (.userMutation 0) :: steps 3)
    (cut.initialized = false ∧ cut.panicked = true) ∧
      (emptied.initialized = false ∧ emptied.ran = [0] ∧ emptied.disk 0 = [] ∧
        emptied.panicked = true) ∧
      (corrupt.initialized = false ∧ corrupt.health = .corrupt ∧ retried.health = .corrupt ∧
        retried.ran = [0]) := by
  decide +kernel

/-- A mutation is refused before INFO is there. -/
theorem refused_before_bootstrap_mutation :
    let s := (Machine.materialized twoChunks).run oneFile twoChunks
      [.bootstrap (.error .blocked), .start 0 (.userMutation 0)]
    s.initialized = false ∧ s.ran = [] := by
  have hrun : Machine.GatedRun oneFile twoChunks (Machine.materialized twoChunks)
      ((Machine.materialized twoChunks).run oneFile twoChunks
        [.bootstrap (.error .blocked), .start 0 (.userMutation 0)]) := by
    apply Machine.GatedRun.next (.next .refl (.bootstrap (.error .blocked)) ?_)
      (.start 0 (.userMutation 0))
    · intro _
      change oneFile.bindings 0 ≠ none
      decide
    · intro _ hcorrupt
      exact absurd hcorrupt (by decide)
  exact ⟨by decide +kernel, (Machine.refused_before_bootstrap hrun (by decide +kernel)).2.1⟩

end PortableFS.Restore
