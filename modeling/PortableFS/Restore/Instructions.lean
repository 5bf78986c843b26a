import PortableFS.Restore.Interleaving

/-!
# One instruction

Every instruction of a thread keeps the invariant of the restore mode, as long as the map file
does not fail: `vcs/internal/restoremode/mode.go:487` (`hydrateLocked`), `:538`
(`installFetchedChunkLocked`), `:579` (`syncFile`), and the parts of `Write`, `Truncate` and
`drain` between two locks.
-/

namespace PortableFS.Restore

open Base.ByteFile Function List

namespace Machine

variable {cfg : Config} {A : Archive} {s : Machine} {t : Tid} {th : Thread} {rest : List Instr}
  {env : Env}

private theorem Inv.goOn (h : s.Inv cfg A) (hth : s.threads t = some th)
    (hnot : ∀ key, ¬th.Closing A key) {prog : List Instr}
    (hok : (∀ f : Fact, f.Holds A s → f.Holds A (s.goOn t th prog)) →
      ∃ goal facts, (∀ f ∈ facts, f.Holds A (s.goOn t th prog) ∧
        ∀ lock, f.guard = some lock → lock ∈ th.held) ∧
        (th.error = none → th.call.Reaches cfg A goal) ∧ Typed cfg A goal th.held facts prog) :
    (s.goOn t th prog).Inv cfg A := by
  refine h.quiet hth ⟨rfl, rfl, rfl, rfl, rfl⟩ ⟨rfl, rfl, rfl, rfl, rfl, fun _ hp => hp, id⟩ rfl rfl
    (fun _ _ _ hl => hl) (h.owns t th hth) (fun key hc => absurd hc (hnot key)) (fun hfacts => ?_)
  exact ⟨(h.threads t th hth).1, hok hfacts⟩

private theorem Inv.giveUpNoted (h : s.Inv cfg A) (hth : s.threads t = some th)
    (hnot : ∀ key, ¬th.Closing A key) (error : RestoreError) :
    (s.giveUpNoted t th error).Inv cfg A :=
  h.gaveUp hth ⟨rfl, rfl, rfl, rfl, rfl⟩ ⟨rfl, rfl, rfl, rfl, rfl, fun _ hp => hp, id⟩ rfl rfl rfl
    fun key hc => absurd hc (hnot key)

variable {facts : List Fact} {s' : Machine}

private theorem kept {facts' : List Fact} (hsub : facts' ⊆ facts)
    (hfacts : ∀ f ∈ facts, f.Holds A s ∧ ∀ lock, f.guard = some lock → lock ∈ th.held)
    (hkeep : ∀ f : Fact, f.Holds A s → f.Holds A s') :
    ∀ f ∈ facts', f.Holds A s' ∧ ∀ lock, f.guard = some lock → lock ∈ th.held :=
  fun f hf => ⟨hkeep f (hfacts f (hsub hf)).1, (hfacts f (hsub hf)).2⟩

variable {f : Fact}

private theorem unguarded (h : f.guard = none) (lock : Lock)
    (hl : f.guard = some lock) : lock ∈ th.held := by
  rw [h] at hl
  cases hl

variable {lock : Lock}

private theorem Inv.exec_acquire (h : s.Inv cfg A) (hth : s.threads t = some th)
    (hprog : th.prog = .acquire lock :: rest) :
    (s.exec A t th rest env (.acquire lock)).Inv cfg A := by
  obtain ⟨hnodup, goal, facts, hfacts, hgoal, hty⟩ := h.threads t th hth
  rw [hprog] at hty
  obtain ⟨hnew, hrest⟩ := hty.head
  have hnot := not_closing_of_head (A := A) hprog
  simp only [exec]
  split
  · next hfree =>
    refine h.quiet hth ⟨rfl, rfl, rfl, rfl, rfl⟩ ⟨rfl, rfl, rfl, rfl, rfl, fun _ hp => hp, id⟩ rfl rfl ?_ ?_
      (fun key hc => absurd hc (hnot key)) (fun hkeep => ?_)
    · intro lock' u hu hl
      change update s.locks lock (some t) lock' = some u
      rw [update_of_ne]
      · exact hl
      · rintro rfl
        rw [hfree] at hl
        cases hl
    · intro lock' hl
      change update s.locks lock (some t) lock' = some t
      rcases mem_cons.mp hl with rfl | hl
      · exact update_self ..
      · rw [update_apply]
        split
        · rfl
        · exact h.owns t th hth lock' hl
    · refine ⟨nodup_cons.mpr ⟨hnew, hnodup⟩, goal, facts, fun f hf => ?_, hgoal, hrest⟩
      exact ⟨hkeep f (hfacts f hf).1, fun l hl => mem_cons_of_mem _ ((hfacts f hf).2 l hl)⟩
  · exact h

private theorem Inv.exec_release (h : s.Inv cfg A) (hth : s.threads t = some th)
    (hprog : th.prog = .release lock :: rest) :
    (s.exec A t th rest env (.release lock)).Inv cfg A := by
  obtain ⟨hnodup, goal, facts, hfacts, hgoal, hty⟩ := h.threads t th hth
  rw [hprog] at hty
  obtain ⟨facts', hheld, hsub, hguard, hrest⟩ := hty.head
  have hnot := not_closing_of_head (A := A) hprog
  refine h.quiet hth ⟨rfl, rfl, rfl, rfl, rfl⟩ ⟨rfl, rfl, rfl, rfl, rfl, fun _ hp => hp, id⟩ rfl rfl ?_ ?_
    (fun key hc => absurd hc (hnot key)) (fun hkeep => ?_)
  · intro lock' u hu hl
    change update s.locks lock none lock' = some u
    rw [update_of_ne]
    · exact hl
    · rintro rfl
      rw [h.owns t th hth _ hheld] at hl
      exact hu (Option.some.inj hl).symm
  · intro lock' hl
    change update s.locks lock none lock' = some t
    obtain ⟨hne, hl⟩ := hnodup.mem_erase_iff.mp hl
    rw [update_of_ne hne]
    exact h.owns t th hth lock' hl
  · refine ⟨hnodup.erase lock, goal, facts', fun f hf => ?_, hgoal, hrest⟩
    refine ⟨hkeep f (hfacts f (hsub hf)).1, fun l hl => ?_⟩
    refine hnodup.mem_erase_iff.mpr ⟨?_, (hfacts f (hsub hf)).2 l hl⟩
    rintro rfl
    exact hguard f hf hl

private theorem Inv.exec_clearBlocked (h : s.Inv cfg A) (hth : s.threads t = some th)
    (hprog : th.prog = .clearBlocked :: rest) :
    (s.exec A t th rest env .clearBlocked).Inv cfg A := by
  obtain ⟨hnodup, goal, facts, hfacts, hgoal, hty⟩ := h.threads t th hth
  rw [hprog] at hty
  have hnot := not_closing_of_head (A := A) hprog
  refine h.quiet hth ⟨rfl, rfl, rfl, rfl, rfl⟩ ⟨rfl, rfl, rfl, rfl, rfl, fun _ hp => hp, id⟩ rfl rfl
    (fun _ _ _ hl => hl) (h.owns t th hth) (fun key hc => absurd hc (hnot key)) (fun hkeep => ?_)
  exact ⟨hnodup, goal, facts, kept (.refl facts) hfacts hkeep, hgoal, hty.head⟩

variable {m : HydrationMap}

theorem Inv.hydratedKeys_eq (hm : s.map = some m) : s.hydratedKeys = m.hydrated := by
  unfold hydratedKeys
  rw [hm]

theorem Inv.durableKeys_eq (hm : s.map = some m) : s.durableKeys = m.durable := by
  unfold durableKeys
  rw [hm]

theorem Inv.durable_subset (h : s.Inv cfg A) : s.durableKeys ⊆ s.hydratedKeys := by
  obtain ⟨m, hm, records, -, -, -, -, hsub⟩ := h.map
  rw [Inv.durableKeys_eq hm, Inv.hydratedKeys_eq hm]
  exact hsub

variable {key : ChunkKey} {goal : List Fact} {held : List Lock}

private theorem typed_settle (hkey : key ∈ A.order) (hshard : .shard (chunkLock key) ∈ held)
    (hcold : .cold key ∉ facts) (hrest : Typed cfg A goal held (wanted key true :: facts) rest) :
    Typed cfg A goal held (.hydrated key :: facts)
      (.sync key.entry :: .mark [key] none :: rest) := by
  have hsync : ∀ f ∈ Fact.settled key :: facts,
      f ∈ Fact.hydrated key :: facts ∨ f.BySync A key.entry (.hydrated key :: facts) := by
    exact forall_mem_cons.mpr ⟨.inr (.settled hkey rfl mem_cons_self),
      fun _ hf => .inl (mem_cons_of_mem _ hf)⟩
  exact .sync hsync (typed_markOne hkey hshard hcold (.inr (.inl rfl)) hrest)

variable {durable : Bool}

private theorem Inv.exec_hydrate (h : s.Inv cfg A) (hth : s.threads t = some th)
    (hprog : th.prog = .hydrate key durable :: rest) :
    (s.exec A t th rest env (.hydrate key durable)).Inv cfg A := by
  obtain ⟨-, goal, facts, hfacts, hgoal, hty⟩ := h.threads t th hth
  obtain ⟨m, hm, -⟩ := h.map
  have hhyd := Inv.hydratedKeys_eq hm
  have hdur := Inv.durableKeys_eq hm
  have hnot := not_closing_of_head (A := A) hprog
  rw [hprog] at hty
  obtain ⟨facts', hkey, hshard, hentry, hsub, hcold, hrest⟩ := hty.head
  -- the facts of the thread, with one more
  have hmore : ∀ {prog : List Instr} (_ : ∀ f : Fact, f.Holds A s → f.Holds A (s.goOn t th prog))
      (f₀ : Fact), f₀.Holds A s → (∀ lock, f₀.guard = some lock → lock ∈ th.held) →
      ∀ f ∈ f₀ :: facts', f.Holds A (s.goOn t th prog) ∧
        ∀ lock, f.guard = some lock → lock ∈ th.held := by
    intro prog hkeep f₀ hf₀ hlock f hf
    rcases mem_cons.mp hf with rfl | hf
    · exact ⟨hkeep _ hf₀, hlock⟩
    · exact kept hsub hfacts hkeep f hf
  simp only [exec, hm]
  split
  · next hhave =>
    have hwanted : (wanted key durable).Holds A s := by
      cases durable with
      | true =>
        change key ∈ s.durableKeys
        rw [hdur]
        simpa [HydrationMap.isDurable] using hhave
      | false =>
        change key ∈ s.hydratedKeys
        rw [hhyd]
        simpa [HydrationMap.isHydrated] using hhave
    refine h.goOn hth hnot fun hkeep => ⟨goal, _, hmore hkeep _ hwanted ?_, hgoal, hrest⟩
    exact unguarded (by cases durable <;> rfl)
  · next hhave =>
    split
    · next hh =>
      have hd : durable = true := by
        cases durable with
        | true => rfl
        | false => exact absurd (.inr ⟨Bool.false_ne_true, hh⟩) hhave
      subst hd
      have hin : (Fact.hydrated key).Holds A s := by
        change key ∈ s.hydratedKeys
        rw [hhyd]
        exact of_decide_eq_true hh
      exact h.goOn hth hnot fun hkeep => ⟨goal, _, hmore hkeep _ hin (unguarded rfl), hgoal,
        typed_settle hkey hshard hcold hrest⟩
    · next hh =>
      have hout : (Fact.cold key).Holds A s := by
        change key ∉ s.hydratedKeys
        rw [hhyd]
        exact fun hin => hh (decide_eq_true hin)
      refine h.goOn hth hnot fun hkeep => ⟨goal, _, hmore hkeep _ hout ?_, hgoal,
        .fetch hkey hshard hentry mem_cons_self
          (subset_cons_of_subset _ (.refl facts')) hcold hrest⟩
      intro lock hl
      cases hl
      exact hshard

private theorem typed_installed
    (hf : f.guard = none) (hguard : ∀ f ∈ facts, f.guard ≠ some (.entry key.entry))
    (hrest : Typed cfg A goal held (f :: facts) rest) :
    Typed cfg A goal (.entry key.entry :: held) (f :: facts)
      (.release (.entry key.entry) :: .clearBlocked :: rest) := by
  refine .release mem_cons_self (.refl _) ?_ ?_
  · intro g hg
    rcases mem_cons.mp hg with rfl | hg
    · rw [hf]
      exact (Option.some_ne_none _).symm
    · exact hguard g hg
  · rw [erase_cons_head]
    exact .clearBlocked hrest

section Fetched

variable {goal : List Fact} {held : List Lock} {facts facts' : List Fact} {key : ChunkKey}

variable (hkey : key ∈ A.order) (hshard : .shard (chunkLock key) ∈ held)
  (hentry : .entry key.entry ∉ held) (hcold : .cold key ∈ facts) (hsub : facts' ⊆ facts)
  (hnot : .cold key ∉ facts') (hguard : ∀ f ∈ facts', f.guard ≠ some (.entry key.entry))
include hkey hshard hentry hcold hsub hnot hguard

private theorem typed_fetchDurable
    (hrest : Typed cfg A goal held (wanted key true :: facts') rest) :
    Typed cfg A goal held facts (.acquire (.entry key.entry) :: .install key ::
      .sync key.entry :: .mark [key] none :: .release (.entry key.entry) ::
      .clearBlocked :: rest) := by
  have hshard' : .shard (chunkLock key) ∈ Lock.entry key.entry :: held :=
    mem_cons_of_mem _ hshard
  have hsync : ∀ f ∈ Fact.flushed key :: facts',
      f ∈ Fact.installed key :: facts' ∨ f.BySync A key.entry (.installed key :: facts') := by
    exact forall_mem_cons.mpr ⟨.inr (.flushed rfl mem_cons_self),
      fun _ hf => .inl (mem_cons_of_mem _ hf)⟩
  have hmark := typed_markOne hkey hshard' hnot (.inl rfl) (typed_installed rfl hguard hrest)
  exact .acquire hentry (.install hkey hshard' mem_cons_self hcold hsub hguard (.sync hsync hmark))

private theorem typed_fetchLazy
    (hrest : Typed cfg A goal held (wanted key false :: facts') rest) :
    Typed cfg A goal held facts (.acquire (.entry key.entry) :: .install key ::
      .markLazy key :: .release (.entry key.entry) :: .clearBlocked :: rest) := by
  have hshard' : .shard (chunkLock key) ∈ Lock.entry key.entry :: held :=
    mem_cons_of_mem _ hshard
  exact .acquire hentry (.install hkey hshard' mem_cons_self hcold hsub hguard
    (.markLazy hkey hshard' mem_cons_self (subset_cons_of_subset _ (.refl facts')) hnot
      (typed_installed rfl hguard hrest)))

end Fetched

private theorem Inv.exec_fetch (h : s.Inv cfg A) (hth : s.threads t = some th)
    (hprog : th.prog = .fetch key durable :: rest) :
    (s.exec A t th rest env (.fetch key durable)).Inv cfg A := by
  obtain ⟨-, goal, facts, hfacts, hgoal, hty⟩ := h.threads t th hth
  have hnot := not_closing_of_head (A := A) hprog
  rw [hprog] at hty
  obtain ⟨facts', hkey, hshard, hentry, hcold, hsub, hncold, hrest⟩ := hty.head
  have hguard : ∀ f ∈ facts', f.guard ≠ some (.entry key.entry) :=
    fun f hf hl => hentry ((hfacts f (hsub hf)).2 _ hl)
  simp only [exec]
  split
  · exact h.giveUpNoted hth hnot _
  split
  · exact h.giveUpNoted hth hnot _
  split
  · next hd =>
    subst hd
    exact h.goOn hth hnot fun hkeep => ⟨goal, facts, kept (.refl facts) hfacts hkeep, hgoal,
      typed_fetchDurable hkey hshard hentry hcold hsub hncold hguard hrest⟩
  · next hd =>
    obtain rfl := Bool.eq_false_of_not_eq_true hd
    exact h.goOn hth hnot fun hkeep => ⟨goal, facts, kept (.refl facts) hfacts hkeep, hgoal,
      typed_fetchLazy hkey hshard hentry hcold hsub hncold hguard hrest⟩

/-- Only one file and its log changed; the storage may have failed. -/
private structure Wrote (s s' : Machine) (entry : Entry) : Prop where
  map : s'.map = s.map
  disk : ∀ e, e ≠ entry → s'.disk e = s.disk e
  log : ∀ e, e ≠ entry → s'.log e = s.log e
  stable : s'.stable = s.stable
  stableLog : s'.stableLog = s.stableLog
  present : s'.present = s.present
  storage : s'.storageFailed = false → s.storageFailed = false

section Wrote

variable {s' : Machine} {entry : Entry} {th' : Thread}

section

variable (h : Wrote s s' entry)
include h

private theorem Wrote.hydratedKeys : s'.hydratedKeys = s.hydratedKeys := by
  unfold Machine.hydratedKeys
  rw [h.map]

private theorem Wrote.durableKeys : s'.durableKeys = s.durableKeys := by
  unfold Machine.durableKeys
  rw [h.map]

private theorem Wrote.sameFile {e : Entry} (he : e ≠ entry) : s.SameFile A s' e := by
  refine ⟨h.disk e he, ?_⟩
  unfold Machine.content
  rw [h.log e he]

private theorem Wrote.stableContent (e : Entry) : s'.stableContent A e = s.stableContent A e := by
  unfold Machine.stableContent
  rw [h.stableLog]

private theorem Wrote.evolves (hclosing : ∀ key, s.Closing A key →
      s'.Closing A key ∨ key ∈ s'.durableKeys ∨ s'.storageFailed = true) : s.Evolves A s' where
  present e hp := by rwa [h.present] at hp
  hydrated := h.hydratedKeys.ge
  durable := h.durableKeys.ge
  storage := h.storage
  stable e := .inl ⟨by rw [h.stable], h.stableContent e⟩
  closing key _ := hclosing key

private theorem Wrote.holds (hev : s.Evolves A s') (hs : s.Inv cfg A)
    (hf : f.Holds A s) (hguard : f.guard ≠ some (.entry entry)) : f.Holds A s' := by
  refine hf.evolve hev hs.warm ?_ (fun e he => .inl (h.sameFile ?_))
  · rintro key rfl
    rw [h.hydratedKeys]
    exact hf
  · rintro rfl
    exact hguard he

end

private theorem Inv.wrote (h : s.Inv cfg A) (hth : s.threads t = some th)
    (hmode : SameMode s s') (hw : Wrote s s' entry) (hpanic : s'.panicked = s.panicked)
    (hthreads : s'.threads = update s.threads t (some th'))
    (hlocks : s'.locks = s.locks) (hheld : th'.held = th.held)
    (hnot : ∀ key, ¬th.Closing A key) (hmine : .entry entry ∈ th.held ∨ s.AllDurable A)
    (hwarm : s.present entry = true →
      A.Warm entry (s'.disk entry) (s'.content A entry) s.hydratedKeys)
    (hintact : s.present entry = true → s'.storageFailed = false →
      ∀ key, s.Open A entry key → s'.Open A entry key → A.Intact key (s'.content A entry))
    (hok : (∀ f : Fact, f.Holds A s → f.guard ≠ some (.entry entry) → f.Holds A s') →
      th'.Ok cfg A s') : s'.Inv cfg A := by
  have hev : s.Evolves A s' := hw.evolves fun key hc =>
    closing_update hth hthreads (fun hown => absurd hown (hnot key)) hc
  refine h.advance (h.exclusive hth) hmode hthreads (fun lock u _ hu => by rw [hlocks]; exact hu)
    (fun lock hl => by rw [hlocks]; exact h.owns t th hth lock (hheld ▸ hl)) hev ?_ ?_ ?_
    (hpanic.trans h.panicked) ?_ (hok fun f hf hguard => hw.holds hev h hf hguard)
  · intro key hin hout
    rw [hw.hydratedKeys] at hin
    exact absurd hin hout
  · intro e
    by_cases he : e = entry
    · subst he
      exact .inr hmine
    · exact .inl (hw.sameFile he)
  · rw [hw.map, hmode.info]
    exact h.map
  intro e hp
  have hp' : s.present e = true := hev.present e hp
  obtain ⟨hdisk, hstable, hold⟩ := h.content e hp'
  rw [hw.stable, hw.stableContent, hw.hydratedKeys, hw.durableKeys]
  by_cases he : e = entry
  · subst he
    exact ⟨hwarm hp', hstable, fun hf key ho => hintact hp' hf key (hev.open hf ho) ho⟩
  · obtain ⟨hd, hc⟩ := hw.sameFile (A := A) he
    rw [hd, hc]
    exact ⟨hdisk, hstable, fun hf key ho => hold (hw.storage hf) key (hev.open hf ho)⟩

end Wrote

private theorem Inv.intact_install (h : s.Inv cfg A) (hth : s.threads t = some th)
    (hprog : th.prog = .install key :: rest) (hkey : key ∈ A.order)
    (hentry : .entry key.entry ∈ th.held) (hcold : key ∉ s.hydratedKeys)
    (hstorage : s.storageFailed = false) (hpresent : s.present key.entry = true) :
    A.Intact key (s.content A key.entry) := by
  have hnot := not_closing_of_head (A := A) hprog
  exact (h.content key.entry hpresent).2.2 hstorage key
    ⟨hkey, rfl, fun hd => hcold (h.durable_subset hd), h.not_closing hth hentry (hnot key)⟩

private theorem Inv.installed (h : s.Inv cfg A) (hth : s.threads t = some th)
    (hprog : th.prog = .install key :: rest) {th' : Thread}
    (hkey : key ∈ A.order) (hentry : .entry key.entry ∈ th.held) (hcold : key ∉ s.hydratedKeys)
    (hstorage : s.storageFailed = false) (hpresent : s.present key.entry = true) (n : Nat)
    (hmode : SameMode s s') (hw : Wrote s s' key.entry) (hpanic : s'.panicked = s.panicked)
    (hdisk : s'.disk key.entry = replay (s.disk key.entry) ((A.edits key).take n))
    (hlog : s'.log key.entry = s.log key.entry)
    (hthreads : s'.threads = update s.threads t (some th'))
    (hlocks : s'.locks = s.locks) (hheld : th'.held = th.held)
    (hok : (∀ f : Fact, f.Holds A s → f.guard ≠ some (.entry key.entry) → f.Holds A s') →
      th'.Ok cfg A s') : s'.Inv cfg A := by
  have hintact := h.intact_install hth hprog hkey hentry hcold hstorage hpresent
  have hcontent : s'.content A key.entry = s.content A key.entry := by
    unfold Machine.content
    rw [hlog]
  refine h.wrote hth hmode hw hpanic hthreads hlocks hheld
    (not_closing_of_head hprog) (.inl hentry) ?_ ?_ hok
  · intro hp
    rw [hdisk, hcontent]
    exact (h.warm key.entry hp).install hkey rfl hcold hintact n
  · intro hp _ key' ho _
    rw [hcontent]
    exact (h.content key.entry hp).2.2 hstorage key' ho

private theorem Inv.exec_install (h : s.Inv cfg A) (hth : s.threads t = some th)
    (hprog : th.prog = .install key :: rest) :
    (s.exec A t th rest env (.install key)).Inv cfg A := by
  obtain ⟨hnodup, goal, facts, hfacts, hgoal, hty⟩ := h.threads t th hth
  have hnot := not_closing_of_head (A := A) hprog
  rw [hprog] at hty
  obtain ⟨facts', hkey, hshard, hentry, hcold, hsub, hguard, hrest⟩ := hty.head
  have hout : key ∉ s.hydratedKeys := (hfacts _ hcold).1
  have hgaveUp : ∀ {s' : Machine} {error : RestoreError}, Thread.Ok cfg A s'
      { th with prog := th.held.map .release, error := some error } := by
    intro s' error
    exact ⟨hnodup, [], [], nofun,
      fun he => absurd he (Option.some_ne_none error), typed_release hnodup (.refl []) nofun⟩
  have hself : ∀ file, update s.disk key.entry file key.entry = file :=
    fun file => update_self ..
  have hother : ∀ file e, e ≠ key.entry → update s.disk key.entry file e = s.disk e :=
    fun file e he => update_of_ne he ..
  simp only [exec]
  split
  · exact h.giveUpNoted hth hnot _
  next hstorage =>
  have hstorage := Bool.eq_false_of_not_eq_true hstorage
  split
  · exact h.giveUpNoted hth hnot _
  next hpresent =>
  have hpresent : s.present key.entry = true := by simpa using hpresent
  cases hwritten : env.written with
  | some n =>
    dsimp only
    split <;>
      exact h.installed hth hprog hkey hentry hout hstorage hpresent n ⟨rfl, rfl, rfl, rfl, rfl⟩
        ⟨rfl, hother _, fun _ _ => rfl, rfl, rfl, rfl, fun hf => hstorage⟩ rfl (hself _) rfl rfl rfl
        rfl (fun _ => hgaveUp)
  | none =>
    dsimp only
    have hall : (A.edits key).take (A.edits key).length = A.edits key := take_length
    split
    · exact h.installed hth hprog hkey hentry hout hstorage hpresent (A.edits key).length
        ⟨rfl, rfl, rfl, rfl, rfl⟩
        ⟨rfl, hother _, fun _ _ => rfl, rfl, rfl, rfl, fun hf => hstorage⟩ rfl
        ((hself _).trans (by rw [hall])) rfl rfl rfl rfl (fun _ => hgaveUp)
    refine h.installed hth hprog hkey hentry hout hstorage hpresent (A.edits key).length
      ⟨rfl, rfl, rfl, rfl, rfl⟩
      ⟨rfl, hother _, fun _ _ => rfl, rfl, rfl, rfl, fun hf => hstorage⟩ rfl
      ((hself _).trans (by rw [hall])) rfl rfl rfl rfl (fun hkeep => ?_)
    refine ⟨hnodup, goal, .installed key :: facts', fun f hf => ?_, hgoal, hrest⟩
    rcases mem_cons.mp hf with rfl | hf
    · refine ⟨fun _ => .inr ?_, fun lock hl => ?_⟩
      · change A.Agrees key (update s.disk key.entry _ key.entry) _
        rw [hself]
        exact Archive.agrees_install (h.intact_install hth hprog hkey hentry hout hstorage hpresent)
      · cases hl
        exact hentry
    · exact ⟨hkeep f (hfacts f (hsub hf)).1 (hguard f hf), (hfacts f (hsub hf)).2⟩

/-- One synced file became the file as it is. -/
structure Synced (s s' : Machine) (entry : Entry) : Prop where
  map : s'.map = s.map
  disk : s'.disk = s.disk
  log : s'.log = s.log
  stable : s'.stable = Function.update s.stable entry (s.disk entry)
  stableLog : s'.stableLog = Function.update s.stableLog entry (s.log entry)
  present : s'.present = s.present
  storage : s'.storageFailed = s.storageFailed

section Synced

variable {s' : Machine} {entry : Entry}

section

variable (h : Synced s s' entry)
include h

theorem Synced.hydratedKeys : s'.hydratedKeys = s.hydratedKeys := by
  unfold Machine.hydratedKeys
  rw [h.map]

theorem Synced.durableKeys : s'.durableKeys = s.durableKeys := by
  unfold Machine.durableKeys
  rw [h.map]

theorem Synced.sameFile (e : Entry) : s.SameFile A s' e := by
  refine ⟨by rw [h.disk], ?_⟩
  unfold Machine.content
  rw [h.log]

/-- The synced file is the file. -/
theorem Synced.self (A : Archive) :
    s'.stable entry = s.disk entry ∧ s'.stableContent A entry = s.content A entry := by
  unfold Machine.stableContent
  rw [h.stable, h.stableLog, update_self, update_self]
  exact ⟨rfl, rfl⟩

theorem Synced.other (A : Archive) {e : Entry} (he : e ≠ entry) :
    s'.stable e = s.stable e ∧ s'.stableContent A e = s.stableContent A e := by
  unfold Machine.stableContent
  rw [h.stable, h.stableLog, update_of_ne he, update_of_ne he]
  exact ⟨rfl, rfl⟩

theorem Synced.evolves (hclosing : ∀ key, s.Closing A key →
      s'.Closing A key ∨ key ∈ s'.durableKeys ∨ s'.storageFailed = true) : s.Evolves A s' where
  present e hp := by rwa [h.present] at hp
  hydrated := h.hydratedKeys.ge
  durable := h.durableKeys.ge
  storage hs := by rwa [h.storage] at hs
  stable e := by
    by_cases he : e = entry
    · subst he
      obtain ⟨hdisk, hcontent⟩ := h.sameFile (A := A) e
      rw [hdisk, hcontent, (h.self A).1, (h.self A).2]
      exact .inr ⟨rfl, rfl, hdisk, hcontent⟩
    · exact .inl (h.other A he)
  closing key _ := hclosing key

theorem Synced.contentOk (hev : s.Evolves A s') (hs : s.Inv cfg A) : s'.ContentOk A := by
  intro e hp
  obtain ⟨hwarm, hstable, hintact⟩ := hs.content e (hev.present e hp)
  obtain ⟨hdisk, hcontent⟩ := h.sameFile (A := A) e
  rw [hdisk, hcontent, h.hydratedKeys, h.durableKeys]
  refine ⟨hwarm, ?_, fun hf key ho => hintact (hev.storage hf) key (hev.open hf ho)⟩
  by_cases he : e = entry
  · subst he
    rw [(h.self A).1, (h.self A).2]
    exact hwarm.mono hs.durable_subset
  · rw [(h.other A he).1, (h.other A he).2]
    exact hstable

/-- A fact survives a sync. -/
theorem Synced.holds (hev : s.Evolves A s') (hs : s.Inv cfg A)
    (hf : f.Holds A s) : f.Holds A s' := by
  refine hf.evolve hev hs.warm ?_ (fun e _ => .inl (h.sameFile e))
  rintro key rfl
  rw [h.hydratedKeys]
  exact hf

private theorem Synced.bySync (hev : s.Evolves A s') (hs : s.Inv cfg A)
    (hfacts : ∀ f ∈ facts, f.Holds A s ∧ ∀ lock, f.guard = some lock → lock ∈ th.held)
    (hf : f.BySync A entry facts) :
    f.Holds A s' ∧ ∀ lock, f.guard = some lock → lock ∈ th.held := by
  have hsub := hev.allDurable
  cases hf with
  | @flushed key he hin =>
    subst he
    obtain ⟨hfact, hlock⟩ := hfacts _ hin
    refine ⟨fun hp => ?_, hlock⟩
    obtain ⟨hdisk, hcontent⟩ := h.sameFile (A := A) key.entry
    rw [hdisk, hcontent, (h.self A).1, (h.self A).2]
    rcases hfact (hev.present _ hp) with hall | hagree
    · exact .inl (hsub hall)
    · exact .inr ⟨hagree, hagree⟩
  | @settled key hkey he hin =>
    subst he
    have hhyd : key ∈ s.hydratedKeys := (hfacts _ hin).1
    refine ⟨⟨hkey, hev.hydrated hhyd, fun hp => ?_⟩, unguarded rfl⟩
    rw [(h.self A).1, (h.self A).2]
    exact (hs.warm key.entry (hev.present _ hp)).agrees hkey rfl hhyd
  | @shortSynced size hin =>
    obtain ⟨hfact, hlock⟩ := hfacts _ hin
    refine ⟨fun hp => ?_, hlock⟩
    rw [h.disk, (h.self A).1]
    rcases hfact (hev.present _ hp) with hall | hlen
    · exact .inl (hsub hall)
    · exact .inr ⟨hlen, hlen⟩

end

end Synced

section

variable (h : s.Inv cfg A)
include h

variable {entry : Entry}

private theorem Inv.exec_sync (hth : s.threads t = some th)
    (hprog : th.prog = .sync entry :: rest) : (s.exec A t th rest env (.sync entry)).Inv cfg A := by
  obtain ⟨hnodup, goal, facts, hfacts, hgoal, hty⟩ := h.threads t th hth
  rw [hprog] at hty
  obtain ⟨facts', hby, hrest⟩ := hty.head
  simp only [exec]
  split
  · next hfailed =>
    exact h.gaveUp hth ⟨rfl, rfl, rfl, rfl, rfl⟩ ⟨rfl, rfl, rfl, rfl, rfl, fun _ hp => hp, id⟩ rfl
      rfl rfl fun _ _ => hfailed
  next hstorage =>
  split
  · exact h.gaveUp hth ⟨rfl, rfl, rfl, rfl, rfl⟩
      ⟨rfl, rfl, rfl, rfl, rfl, fun _ hp => hp, fun _ => Bool.eq_false_of_not_eq_true hstorage⟩ rfl
      rfl rfl fun _ _ => rfl
  generalize hs' : Machine.goOn _ t th rest = s'
  obtain ⟨hsynced, hthreads, hlocks, hmode, hpanic⟩ : Synced s s' entry ∧
      s'.threads = update s.threads t (some { th with prog := rest }) ∧
      s'.locks = s.locks ∧ SameMode s s' ∧ s'.panicked = s.panicked := by
    subst hs'
    exact ⟨⟨rfl, rfl, rfl, rfl, rfl, rfl, rfl⟩, rfl, rfl, ⟨rfl, rfl, rfl, rfl, rfl⟩, rfl⟩
  have hev : s.Evolves A s' := by
    refine hsynced.evolves fun key hc => closing_update hth hthreads (fun hown => .inl ?_) hc
    rcases closing_head hown hprog with ⟨-, keys, size, rest', hrest', hkey, hsize⟩ | hbeyond
    · exact ⟨keys, size, rest', .inr hrest', hkey, hsize⟩
    · obtain ⟨keys, size, hi, -⟩ := hbeyond
      cases hi
  refine h.advance (h.exclusive hth) hmode hthreads (fun lock u _ hu => by rw [hlocks]; exact hu)
    (fun lock hl => by rw [hlocks]; exact h.owns t th hth lock hl) hev ?_
    (fun e => .inl (hsynced.sameFile e)) ?_ (hpanic.trans h.panicked)
    (hsynced.contentOk hev h) ?_
  · intro key hin hout
    rw [hsynced.hydratedKeys] at hin
    exact absurd hin hout
  · rw [hsynced.map, hmode.info]
    exact h.map
  · refine ⟨hnodup, goal, facts', fun f hf => ?_, hgoal, hrest⟩
    rcases hby f hf with hin | hnew
    · exact ⟨hsynced.holds hev h (hfacts f hin).1, (hfacts f hin).2⟩
    · exact hsynced.bySync hev h hfacts hnew

private theorem Inv.marked (hth : s.threads t = some th) {m' : HydrationMap}
    (hm : s.map = some m) {warm dry : Finset ChunkKey}
    (hhyd : m'.hydrated = m.hydrated ∪ warm) (hdur : m'.durable = m.durable ∪ dry)
    (hsane : m'.Sane cfg A (mapConfig cfg s.info))
    (hlocked : ∀ key ∈ warm, .shard (chunkLock key) ∈ th.held)
    (hdisk : ∀ key ∈ warm, s.present key.entry = true →
      A.Agrees key (s.disk key.entry) (s.content A key.entry))
    (hstable : ∀ key ∈ dry, s.present key.entry = true →
      A.Agrees key (s.stable key.entry) (s.stableContent A key.entry))
    (hclosing : ∀ key ∈ A.order, th.Closing A key → key ∈ dry)
    (hok : ∀ s' : Machine, (∀ f : Fact, f.Holds A s → (∀ key ∈ warm, f ≠ .cold key) → f.Holds A s') →
      (∀ key ∈ warm, key ∈ s'.hydratedKeys) → (∀ key ∈ dry, key ∈ s'.durableKeys) →
      Thread.Ok cfg A s' { th with prog := rest }) :
    ({ s with map := some m' }.goOn t th rest).Inv cfg A := by
  generalize hs' : Machine.goOn _ t th rest = s'
  -- what the step leaves: only the map and the thread's program change
  obtain ⟨hmap', hthreads, hlocks, hmode, hfile, hstable', hstorage, hpresent, hpanic⟩ :
      s'.map = some m' ∧
      s'.threads = update s.threads t (some { th with prog := rest }) ∧
      s'.locks = s.locks ∧ SameMode s s' ∧ (∀ e, s.SameFile A s' e) ∧
      (∀ e, s'.stable e = s.stable e ∧ s'.stableContent A e = s.stableContent A e) ∧
      s'.storageFailed = s.storageFailed ∧ s'.present = s.present ∧ s'.panicked = s.panicked := by
    subst hs'
    exact ⟨rfl, rfl, rfl, ⟨rfl, rfl, rfl, rfl, rfl⟩, fun e => ⟨rfl, rfl⟩, fun e => ⟨rfl, rfl⟩, rfl,
      rfl, rfl⟩
  have hhyd' : s'.hydratedKeys = s.hydratedKeys ∪ warm := by
    rw [Inv.hydratedKeys_eq hmap', Inv.hydratedKeys_eq hm, hhyd]
  have hdur' : s'.durableKeys = s.durableKeys ∪ dry := by
    rw [Inv.durableKeys_eq hmap', Inv.durableKeys_eq hm, hdur]
  have hev : s.Evolves A s' := by
    refine ⟨fun e hp => by rwa [hpresent] at hp, ?_, ?_, fun hf => by rwa [hstorage] at hf,
      fun e => .inl (hstable' e), fun key hkey hc => closing_update hth hthreads (fun hown => ?_) hc⟩
    · rw [hhyd']
      exact Finset.subset_union_left
    · rw [hdur']
      exact Finset.subset_union_left
    · rw [hdur']
      exact .inr (.inl (Finset.mem_union_right _ (hclosing key hkey hown)))
  have hnew : ∀ key, key ∈ s'.hydratedKeys → key ∉ s.hydratedKeys → key ∈ warm := by
    intro key hin hout
    rw [hhyd'] at hin
    exact (Finset.mem_union.mp hin).resolve_left hout
  refine h.advance (h.exclusive hth) hmode hthreads (fun lock u _ hu => by rw [hlocks]; exact hu)
    (fun lock hl => by rw [hlocks]; exact h.owns t th hth lock hl) hev
    (fun key hin hout => hlocked key (hnew key hin hout)) (fun e => .inl (hfile e))
    ⟨m', hmap', by rw [hmode.info]; exact hsane⟩ (hpanic.trans h.panicked) ?_ ?_
  · intro e hp
    have hp' := hev.present e hp
    obtain ⟨hw, hst, hintact⟩ := h.content e hp'
    rw [(hfile e).1, (hfile e).2, (hstable' e).1, (hstable' e).2, hhyd', hdur']
    refine ⟨hw.union ?_, hst.union ?_, fun hf key ho => hintact (hev.storage hf) key (hev.open hf ho)⟩
    · rintro key hin - rfl
      exact hdisk key hin hp'
    · rintro key hin - rfl
      exact hstable key hin hp'
  · refine hok s' (fun f hf hcold => ?_) ?_ ?_
    · refine hf.evolve hev h.warm ?_ (fun e _ => .inl (hfile e))
      rintro key rfl hin
      exact hcold key (hnew key hin hf) rfl
    · rw [hhyd']
      exact fun key hin => Finset.mem_union_right _ hin
    · rw [hdur']
      exact fun key hin => Finset.mem_union_right _ hin

private theorem Inv.agrees_of_durable (hkey : key ∈ A.order)
    (hdur : key ∈ s.durableKeys) (hp : s.present key.entry = true) :
    A.Agrees key (s.disk key.entry) (s.content A key.entry) ∧
      A.Agrees key (s.stable key.entry) (s.stableContent A key.entry) := by
  exact ⟨(h.warm key.entry hp).agrees hkey rfl (h.durable_subset hdur),
    (h.content key.entry hp).2.1.agrees hkey rfl hdur⟩

variable {keys : List ChunkKey}

section

variable (hth : s.threads t = some th)
include hth

variable {userEntry : Option Entry}

private theorem Inv.markBy (hnodup : keys.Nodup)
    (hkeys : ∀ key ∈ keys, key ∈ A.order ∧ .shard (chunkLock key) ∈ th.held ∧
      (s.present key.entry = true → A.Agrees key (s.disk key.entry) (s.content A key.entry) ∧
        A.Agrees key (s.stable key.entry) (s.stableContent A key.entry)))
    (huser : ∀ entry, userEntry = some entry → entry.toNat < cfg.entries)
    (hclosing : ∀ key ∈ A.order, th.Closing A key → key ∈ keys)
    (hok : ∀ s' : Machine, (∀ f : Fact, f.Holds A s → (∀ key ∈ keys, f ≠ .cold key) → f.Holds A s') →
      (∀ key ∈ keys, key ∈ s'.durableKeys) → Thread.Ok cfg A s' { th with prog := rest }) :
    (s.markBy t th rest keys userEntry .none).Inv cfg A := by
  obtain ⟨m, hm, hsane⟩ := h.map
  have hmax : A.order.length + cfg.entries ≤ (mapConfig cfg s.info).maxRecords :=
    Nat.add_le_add_right h.fits cfg.entries
  obtain ⟨m', hmark, hsane', hhyd, hdur⟩ :=
    hsane.mark hmax hnodup (fun key hk => (hkeys key hk).1) huser
  have hmem : ∀ key, key ∈ keys.toFinset → key ∈ keys := fun key => mem_toFinset.mp
  simp only [Machine.markBy, hm, hmark]
  refine h.marked hth hm hhyd hdur hsane'
    (fun key hk => (hkeys key (hmem key hk)).2.1) (fun key hk hp => ((hkeys key (hmem key hk)).2.2 hp).1)
    (fun key hk hp => ((hkeys key (hmem key hk)).2.2 hp).2)
    (fun key hkey hc => mem_toFinset.mpr (hclosing key hkey hc)) ?_
  intro s' hkeep _ hdone
  exact hok s' (fun f hf hcold => hkeep f hf fun key hk => hcold key (hmem key hk))
    fun key hk => hdone key (mem_toFinset.mpr hk)

private theorem Inv.exec_mark (henv : env.map = .none)
    (hprog : th.prog = .mark keys userEntry :: rest) :
    (s.exec A t th rest env (.mark keys userEntry)).Inv cfg A := by
  obtain ⟨hheld, goal, facts, hfacts, hgoal, hty⟩ := h.threads t th hth
  rw [hprog] at hty
  obtain ⟨facts', hnodup, hkeys, huser, hsub, hcold, hrest⟩ := hty.head
  have hnot := not_closing_of_head (A := A) hprog
  simp only [exec, henv]
  refine h.markBy hth hnodup ?_ huser (fun key _ hc => absurd hc (hnot key)) ?_
  · intro key hk
    obtain ⟨hkey, hshard, hwhy⟩ := hkeys key hk
    refine ⟨hkey, hshard, fun hp => ?_⟩
    rcases hwhy with hf | hf | hf
    · rcases (hfacts _ hf).1 hp with hall | hboth
      · exact h.agrees_of_durable hkey (hall key hkey) hp
      · exact hboth
    · obtain ⟨-, hhyd, hstable⟩ := (hfacts _ hf).1
      exact ⟨(h.warm key.entry hp).agrees hkey rfl hhyd, hstable hp⟩
    · have hgone : s.present key.entry = false := (hfacts _ hf).1
      rw [hgone] at hp
      exact absurd hp Bool.false_ne_true
  · intro s' hkeep hdone
    refine ⟨hheld, goal, _, fun f hf => ?_, hgoal, hrest⟩
    rcases mem_append.mp hf with hf | hf
    · obtain ⟨key, hk, rfl⟩ := mem_map.mp hf
      exact ⟨hdone key hk, unguarded rfl⟩
    · refine ⟨hkeep f (hfacts f (hsub hf)).1 ?_, (hfacts f (hsub hf)).2⟩
      rintro key hk rfl
      exact hcold key hk hf

private theorem Inv.exec_beyond (henv : env.map = .none)
    {size : Nat} (hprog : th.prog = .beyond entry keys size :: rest) :
    (s.exec A t th rest env (.beyond entry keys size)).Inv cfg A := by
  obtain ⟨hheld, goal, facts, hfacts, hgoal, hty⟩ := h.threads t th hth
  rw [hprog] at hty
  obtain ⟨facts', rfl, -, hfile, hbound, hshort, hsub, hcold, hrest⟩ := hty.head
  have hmem : ∀ key, key ∈ (A.order.filter (·.entry = entry)).filter
      (fun key => size ≤ key.chunk.toNat * s.info.chunkSize.toNat) ↔
      key ∈ A.order ∧ key.entry = entry ∧ size ≤ A.chunkStart key := by
    intro key
    rw [h.chunkSize]
    simp only [mem_filter, decide_eq_true_eq]
    exact and_assoc
  simp only [exec, henv]
  refine h.markBy hth ((A.order_nodup.filter _).filter _) ?_ ?_ ?_ ?_
  · intro key hk
    obtain ⟨hkey, rfl, hsize⟩ := (hmem key).mp hk
    refine ⟨hkey, hfile key hkey rfl, fun hp => ?_⟩
    have hfar : ∀ x, (A.sealedAt key x).isSome → size ≤ x := by
      intro x hx
      obtain ⟨b, hb⟩ := Option.isSome_iff_exists.mp hx
      exact hsize.trans (Archive.sealedAt_bounds hkey hb).1
    rcases (hfacts _ hshort).1 hp with hall | ⟨hdisk, hstable⟩
    · exact h.agrees_of_durable hkey (hall key hkey) hp
    · exact ⟨Archive.agrees_of_short (h.warm key.entry hp).length fun x hx => hdisk.trans (hfar x hx),
        Archive.agrees_of_short (h.content key.entry hp).2.1.length
          fun x hx => hstable.trans (hfar x hx)⟩
  · intro entry' he
    cases he
    exact hbound
  · intro key hkey hc
    rcases closing_head hc hprog with ⟨hi, -⟩ | ⟨keys', size', hi, -, hsize⟩
    · cases hi
    · cases hi
      exact (hmem key).mpr ⟨hkey, rfl, hsize⟩
  · intro s' hkeep _
    refine ⟨hheld, goal, facts', fun f hf => ⟨hkeep f (hfacts f (hsub hf)).1 ?_,
      (hfacts f (hsub hf)).2⟩, hgoal, hrest⟩
    rintro key - rfl
    exact hcold key hf

private theorem Inv.exec_markLazy (hprog : th.prog = .markLazy key :: rest) :
    (s.exec A t th rest env (.markLazy key)).Inv cfg A := by
  obtain ⟨hheld, goal, facts, hfacts, hgoal, hty⟩ := h.threads t th hth
  rw [hprog] at hty
  obtain ⟨facts', hkey, hshard, hinstalled, hsub, hcold, hrest⟩ := hty.head
  have hnot := not_closing_of_head (A := A) hprog
  obtain ⟨m, hm, hsane⟩ := h.map
  simp only [exec, hm]
  have hhyd : (m.markLazy key).hydrated = m.hydrated ∪ {key} := by
    rw [Finset.union_comm]
    rfl
  refine h.marked hth hm hhyd (Finset.union_empty m.durable).symm
    (hsane.markLazy key) ?_ ?_ (fun k hk => absurd hk (Finset.notMem_empty k))
    (fun k _ hc => absurd hc (hnot k)) ?_
  · intro k hk
    rw [Finset.mem_singleton.mp hk]
    exact hshard
  · intro k hk hp
    obtain rfl := Finset.mem_singleton.mp hk
    rcases (hfacts _ hinstalled).1 hp with hall | hagree
    · exact (h.agrees_of_durable hkey (hall k hkey) hp).1
    · exact hagree
  · intro s' hkeep hdone _
    refine ⟨hheld, goal, _, fun f hf => ?_, hgoal, hrest⟩
    rcases mem_cons.mp hf with rfl | hf
    · exact ⟨hdone key (Finset.mem_singleton_self key), unguarded rfl⟩
    · refine ⟨hkeep f (hfacts f (hsub hf)).1 ?_, (hfacts f (hsub hf)).2⟩
      rintro k hk rfl
      rw [Finset.mem_singleton.mp hk] at hf
      exact hcold hf

end

end

private theorem start_or_cut {x size : Nat} (hkey : key ∈ A.order)
    (hx : (A.sealedAt key x).isSome) (hsize : size ≤ x) :
    size ≤ A.chunkStart key ∨
      key.chunk.toNat = size / A.chunkSize.toNat ∧ size % A.chunkSize.toNat ≠ 0 := by
  obtain ⟨b, hb⟩ := Option.isSome_iff_exists.mp hx
  have hle : size / A.chunkSize.toNat ≤ key.chunk.toNat := by
    rw [← Archive.sealedAt_chunk hkey hb]
    exact Nat.div_le_div_right hsize
  unfold Archive.chunkStart
  rcases Nat.lt_or_eq_of_le hle with hlt | heq
  · exact .inl (Nat.le_of_lt ((Nat.div_lt_iff_lt_mul A.chunkSize_pos).mp hlt))
  · by_cases hmod : size % A.chunkSize.toNat = 0
    · left
      rw [← heq, Nat.div_mul_cancel (Nat.dvd_of_mod_eq_zero hmod)]
    · exact .inr ⟨heq.symm, hmod⟩

section

variable (h : s.Inv cfg A)
include h

variable {entry : Entry}

private theorem Inv.exec_boundary (hth : s.threads t = some th)
    {oldSize newSize : Nat} (hprog : th.prog = .boundary entry oldSize newSize :: rest) :
    (s.exec A t th rest env (.boundary entry oldSize newSize)).Inv cfg A := by
  obtain ⟨-, goal, facts, hfacts, hgoal, hty⟩ := h.threads t th hth
  rw [hprog] at hty
  obtain ⟨facts', hsized, hfile, hentry, hbound, hsub, hcold, hrest⟩ := hty.head
  have hnot := not_closing_of_head (A := A) hprog
  -- what is left of the thread once the chunk that the new end cuts is known
  have hgo : ∀ (but : Option ChunkKey) (prog : List Instr),
      (Fact.tail entry newSize but).Holds A s →
      Typed cfg A goal th.held (.tail entry newSize but :: facts') prog →
      (s.goOn t th prog).Inv cfg A := by
    intro but prog htail hty
    refine h.goOn hth hnot fun hkeep => ⟨goal, _, fun f hf => ?_, hgoal, hty⟩
    rcases mem_cons.mp hf with rfl | hf
    · exact ⟨hkeep _ htail, unguarded rfl⟩
    · exact kept hsub hfacts hkeep f hf
  have huser : ∀ e, some entry = some e → e.toNat < cfg.entries := by
    intro e he
    cases he
    exact hbound
  have hmark : ∀ {facts : List Fact}, Typed cfg A goal th.held facts rest →
      Typed cfg A goal th.held facts (.mark [] (some entry) :: rest) := by
    intro facts hty
    exact .mark nodup_nil nofun huser (.refl facts) nofun hty
  have hnone := hrest none
  simp only [exec]
  split
  next hcut =>
    split
    · next hzero =>
      rw [h.chunkSize] at hzero
      have hpos := A.chunkSize_pos
      rw [hzero] at hpos
      exact absurd hpos (lt_irrefl 0)
    rw [h.chunkSize, h.order]
    generalize hdef : ChunkKey.mk entry (UInt32.ofNat (newSize / A.chunkSize.toNat)) = cut
    have hsame : ∀ key : ChunkKey, key.entry = entry →
        key.chunk.toNat = newSize / A.chunkSize.toNat → key = cut := by
      rintro key rfl hchunk
      rw [← hdef, ← hchunk, UInt32.ofNat_toNat]
    have hcutEntry : cut.entry = entry := by rw [← hdef]
    split
    · split
      · next hkey =>
        refine hgo (some cut) _ ?_ (.hydrate hkey (hfile cut hkey hcutEntry) (hcutEntry ▸ hentry)
          (.refl _) ?_ (hmark ((hrest (some cut)).weaken ?_)))
        · intro _ _ key ho hne x hx hsize
          rcases start_or_cut ho.1 hx hsize with hstart | ⟨hchunk, -⟩
          · exact hstart
          · exact absurd (congrArg some (hsame key ho.2.1 hchunk)) hne
        · intro hf
          rcases mem_cons.mp hf with hf | hf
          · cases hf
          · exact hcold cut hf
        · intro f hf
          simp only [Option.toList_some, map_cons, map_nil, cons_append,
            nil_append, mem_cons, wanted, if_true] at hf ⊢
          tauto
      · next hkey =>
        refine hgo none _ ?_ (hmark hnone)
        intro _ _ key ho _ x hx hsize
        rcases start_or_cut ho.1 hx hsize with hstart | ⟨hchunk, -⟩
        · exact hstart
        · exact absurd (hsame key ho.2.1 hchunk ▸ ho.1) hkey
    · next hmod =>
      refine hgo none _ ?_ hnone
      intro _ _ key ho _ x hx hsize
      rcases start_or_cut ho.1 hx hsize with hstart | ⟨-, hne⟩
      · exact hstart
      · exact absurd hne hmod
  next hcut =>
    refine hgo none _ ?_ hnone
    intro hp hs key ho _ x hx hsize
    rcases Nat.eq_zero_or_pos newSize with rfl | hpos
    · exact Nat.zero_le _
    · have hlt := (hfacts _ hsized).1 hp hs key ho x hx
      omega

variable {op : FileOp}

private theorem Inv.applied (hth : s.threads t = some th)
    (hprog : th.prog = .apply (some entry) op :: rest)
    (hmine : .entry entry ∈ th.held ∨ s.AllDurable A)
    (hwarm : s.present entry = true →
      A.Warm entry (op.run (s.disk entry)) (op.run (s.content A entry)) s.hydratedKeys)
    (hintact : ∀ s' : Machine, s'.threads = update s.threads t (some { th with prog := rest }) →
      s.present entry = true → s.storageFailed = false → ∀ key, s.Open A entry key →
      s'.Open A entry key → A.Intact key (s.content A entry) →
      A.Intact key (op.run (s.content A entry)))
    (hok : ∀ s' : Machine, s'.disk entry = op.run (s.disk entry) →
      (∀ f : Fact, f.Holds A s → f.guard ≠ some (.entry entry) → f.Holds A s') →
      Thread.Ok cfg A s' { th with prog := rest }) :
    ({ s with
      ran := t :: s.ran
      disk := update s.disk entry (op.run (s.disk entry))
      log := update s.log entry (s.log entry ++ [op]) }.goOn t th rest).Inv cfg A := by
  have hcontent : A.content entry (update s.log entry (s.log entry ++ [op]) entry) =
      op.run (s.content A entry) := by
    rw [update_self, Archive.content_append]
    rfl
  have hdisk : update s.disk entry (op.run (s.disk entry)) entry = op.run (s.disk entry) :=
    update_self ..
  refine h.wrote hth ⟨rfl, rfl, rfl, rfl, rfl⟩
    ⟨rfl, fun e he => update_of_ne he .., fun e he => update_of_ne he .., rfl, rfl,
      rfl, id⟩ rfl rfl rfl rfl (not_closing_of_head hprog) hmine ?_ ?_ ?_
  · intro hp
    have hrun := hwarm hp
    rw [← hdisk, ← hcontent] at hrun
    exact hrun
  · intro hp hf key ho ho'
    have hrun := hintact _ rfl hp hf key ho ho' ((h.content entry hp).2.2 hf key ho)
    rw [← hcontent] at hrun
    exact hrun
  · exact hok _ hdisk

private theorem Inv.exec_apply (hth : s.threads t = some th)
    {entry : Option Entry} (hprog : th.prog = .apply entry op :: rest) :
    (s.exec A t th rest env (.apply entry op)).Inv cfg A := by
  obtain ⟨hnodup, goal, facts, hfacts, hgoal, hty⟩ := h.threads t th hth
  rw [hprog] at hty
  have hnot := not_closing_of_head (A := A) hprog
  -- the facts that survive a change of a file
  have hkept : ∀ {s' : Machine} {facts' : List Fact} {e : Entry}, facts' ⊆ facts →
      (∀ f ∈ facts', f.guard ≠ some (.entry e)) →
      (∀ f : Fact, f.Holds A s → f.guard ≠ some (.entry e) → f.Holds A s') →
      ∀ f ∈ facts', f.Holds A s' ∧ ∀ lock, f.guard = some lock → lock ∈ th.held := by
    intro s' facts' e hsub hguard hkeep f hf
    exact ⟨hkeep f (hfacts f (hsub hf)).1 (hguard f hf), (hfacts f (hsub hf)).2⟩
  simp only [exec]
  split
  · exact h.gaveUp hth ⟨rfl, rfl, rfl, rfl, rfl⟩ ⟨rfl, rfl, rfl, rfl, rfl, fun _ hp => hp, id⟩ rfl
      rfl rfl fun key hc => absurd hc (hnot key)
  cases entry with
  | none =>
    refine h.quiet hth ⟨rfl, rfl, rfl, rfl, rfl⟩ ⟨rfl, rfl, rfl, rfl, rfl, fun _ hp => hp, id⟩ rfl
      rfl (fun _ _ _ hl => hl) (h.owns t th hth) (fun key hc => absurd hc (hnot key)) (fun hkeep => ?_)
    exact ⟨hnodup, goal, facts, kept (.refl facts) hfacts hkeep, hgoal, hty.applyUnbound_inv⟩
  | some entry =>
    cases hty.apply_inv with
    | metadata hrest =>
      refine h.quiet hth ⟨rfl, rfl, rfl, rfl, rfl⟩
        ⟨rfl, update_eq_self entry s.disk, ?_, rfl, rfl, fun _ hp => hp, id⟩ rfl rfl
        (fun _ _ _ hl => hl) (h.owns t th hth) (fun key hc => absurd hc (hnot key)) (fun hkeep => ?_)
      · funext e
        change A.content e (update s.log entry (s.log entry ++ [.metadata]) e) = _
        by_cases he : e = entry
        · subst he
          rw [update_self, Archive.content_append]
          rfl
        · rw [update_of_ne he]
          rfl
      · exact ⟨hnodup, goal, facts, kept (.refl facts) hfacts hkeep, hgoal, hrest⟩
    | converged hall hsub hguard hrest =>
      have hall : s.AllDurable A := (hfacts _ hall).1
      refine h.applied hth hprog (.inr hall) ?_ ?_ ?_
      · intro hp
        have hsame := (h.warm entry hp).eq fun key hkey _ => h.durable_subset (hall key hkey)
        rw [hsame]
        exact ⟨rfl, fun x => .inl rfl⟩
      · intro s' _ _ _ key ho
        exact absurd (hall key ho.1) ho.2.2.1
      · intro s' _ hkeep
        exact ⟨hnodup, goal, _, hkept hsub hguard hkeep, hgoal, hrest⟩
    | @range op _ hentry hkeys hsub hguard hrest =>
      refine h.applied hth hprog (.inl hentry) ?_ ?_ ?_
      · intro hp
        refine (h.warm entry hp).range op fun key hkey he hcold => ?_
        rcases hkeys key hkey he with ⟨hd, -⟩ | hout
        · exact absurd (h.durable_subset (hfacts _ hd).1) hcold
        · exact hout
      · intro s' _ _ _ key ho _ hintact
        rcases hkeys key ho.1 ho.2.1 with ⟨hd, -⟩ | hout
        · exact absurd (hfacts _ hd).1 ho.2.2.1
        · exact hintact.range op ho.1 hout
      · intro s' _ hkeep
        exact ⟨hnodup, goal, _, hkept hsub hguard hkeep, hgoal, hrest⟩
    | @truncate size but _ rest' hentry hfile htail hbut hsub hguard hshape hrest =>
      refine h.applied hth hprog (.inl hentry) (fun hp => (h.warm entry hp).resize size) ?_ ?_
      · intro s' hthreads hp hs key ho ho' hintact
        refine hintact.resize fun x hx => ?_
        by_contra hge
        have hne : some key ≠ but := fun heq => ho.2.2.1 (hfacts _ (hbut key heq.symm)).1
        have hstart := (hfacts _ htail).1 hp hs key ho hne x hx (Nat.le_of_not_lt hge)
        -- the chunk is cut off: the thread is about to mark it
        refine ho'.2.2.2 ⟨t, _, by rw [hthreads, update_self], ?_⟩
        refine ⟨A.order.filter (·.entry = entry), size, rest', .inl ?_, ?_, hstart⟩
        · rw [ho.2.1]
          exact hshape
        · exact mem_filter.mpr ⟨ho.1, decide_eq_true ho.2.1⟩
      · intro s' hdisk hkeep
        refine ⟨hnodup, goal, _, fun f hf => ?_, hgoal, hrest⟩
        rcases mem_cons.mp hf with rfl | hf
        · refine ⟨fun _ => .inr ?_, fun lock hl => ?_⟩
          · rw [hdisk]
            exact (length_resize _ _).le
          · cases hl
            exact hentry
        · exact hkept hsub hguard hkeep f hf

private theorem Inv.exec_reap (hth : s.threads t = some th)
    (hprog : th.prog = .reap key :: rest) : (s.exec A t th rest env (.reap key)).Inv cfg A := by
  obtain ⟨hnodup, goal, facts, hfacts, hgoal, hty⟩ := h.threads t th hth
  rw [hprog] at hty
  obtain ⟨facts', hkey, hshard, hentry, hsub, hcold, hrest⟩ := hty.head
  have hnot := not_closing_of_head (A := A) hprog
  simp only [exec]
  split
  · refine h.goOn hth hnot fun hkeep => ⟨goal, facts', kept hsub hfacts hkeep, hgoal, ?_⟩
    exact .hydrate hkey hshard hentry (.refl facts') hcold
      (hrest.weaken (subset_cons_of_subset _ (.refl facts')))
  split
  · have hgone : update s.present key.entry false key.entry = false :=
      update_self ..
    refine h.quiet hth ⟨rfl, rfl, rfl, rfl, rfl⟩ ⟨rfl, rfl, rfl, rfl, rfl, fun e hp => ?_, id⟩ rfl
      rfl (fun _ _ _ hl => hl) (h.owns t th hth) (fun k hc => absurd hc (hnot k)) (fun hkeep => ?_)
    · change update s.present key.entry false e = true at hp
      by_cases he : e = key.entry
      · subst he
        rw [hgone] at hp
        exact absurd hp Bool.false_ne_true
      · rwa [update_of_ne he] at hp
    · refine ⟨hnodup, goal, .gone key.entry :: facts', fun f hf => ?_, hgoal, ?_⟩
      · rcases mem_cons.mp hf with rfl | hf
        · exact ⟨hgone, unguarded rfl⟩
        · exact kept hsub hfacts hkeep f hf
      · exact typed_markOne hkey hshard hcold (.inr (.inr rfl))
          (hrest.weaken (subset_cons_self _ _))
  · exact h.goOn hth hnot fun hkeep =>
      ⟨goal, facts', kept hsub hfacts hkeep, hgoal, hrest⟩

/-- A step of a thread keeps the invariant, whatever fetches, writes and syncs answer, as long as
the map file does not fail. -/
theorem Inv.step (t : Tid) (henv : env.map = .none) : (s.step A t env).Inv cfg A := by
  unfold Machine.step
  split
  · exact h
  next th hth =>
  split
  · exact h
  next i rest hprog =>
  cases i with
  | acquire lock => exact h.exec_acquire hth hprog
  | release lock => exact h.exec_release hth hprog
  | hydrate key durable => exact h.exec_hydrate hth hprog
  | fetch key durable => exact h.exec_fetch hth hprog
  | install key => exact h.exec_install hth hprog
  | sync entry => exact h.exec_sync hth hprog
  | mark keys userEntry => exact h.exec_mark hth henv hprog
  | markLazy key => exact h.exec_markLazy hth hprog
  | clearBlocked => exact h.exec_clearBlocked hth hprog
  | boundary entry oldSize newSize => exact h.exec_boundary hth hprog
  | apply entry op => exact h.exec_apply hth hprog
  | beyond entry keys newSize => exact h.exec_beyond hth henv hprog
  | reap key => exact h.exec_reap hth hprog

end

end Machine

end PortableFS.Restore
