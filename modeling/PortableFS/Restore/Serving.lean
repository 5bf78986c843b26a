import PortableFS.Base.Reader
import PortableFS.Restore.Gate
import PortableFS.Restore.Instructions

/-!
# Serving a volume while it is restored

Runs of an initialized restore mode without a crash: calls and drain attempts in any interleaving,
unlinks, syncs of users, health checks and the convergence, with any failure of a fetch, a
`PWrite`, a `RestoreMtime` or a `Fdatasync`. In every state that such a run reaches, a range that
`EnsureHydrated` let pass reads as the user operations in order over the sealed content.
-/

namespace PortableFS.Restore

open Base Base.ByteFile List

namespace Machine

variable {cfg : Config} {A : Archive} {s s' : Machine} {t : Tid} {info : InfoPage}

variable {m : HydrationMap}

/-- A page of INFO that the bootstrap takes passes its checks, and the map opens. -/
theorem openInfo_ok (h : openInfo cfg s info = .ok m) :
    checkInfo cfg info = .ok () ∧ s.checkOrder info [] info.order = .ok () ∧
      openHydrationMap (mapConfig cfg info) s.mapFile = .ok m := by
  unfold openInfo at h
  obtain ⟨_, hinfo, h⟩ := bind_eq_ok.mp h
  obtain ⟨_, horder, h⟩ := bind_eq_ok.mp h
  split at h
  · next m' hmap =>
    cases h
    exact ⟨hinfo, horder, hmap⟩
  · cases h

theorem checkInfo_fits (h : checkInfo cfg info = .ok ()) :
    info.order.length ≤ cfg.maxStoredChunks := by
  unfold checkInfo at h
  split_ifs at h with _ _ _ _ _ _ hcount
  push Not at hcount
  rw [← hcount.1]
  exact hcount.2.2

/-- A mode without threads whose bootstrap took INFO and opened a sane map has the invariant, if
every file is its content up to chunks that are not marked. -/
theorem Inv.of_opened (hthreads : ∀ t, s.threads t = none) (hpanic : s.panicked = false)
    (hconv : s.converged = false) (horder : info.order = A.order)
    (hchunk : info.chunkSize = A.chunkSize) (hm : openInfo cfg s info = .ok m)
    (hsane : m.Sane cfg A (mapConfig cfg info)) (hcontent : ∀ entry, s.present entry = true →
      A.Warm entry (s.disk entry) (s.content A entry) m.hydrated ∧
        A.Warm entry (s.stable entry) (s.stableContent A entry) m.durable ∧
        ∀ key ∈ A.order, key.entry = entry → key ∉ m.durable → A.Intact key (s.content A entry)) :
    ({ s with info := info, map := some m, initialized := true }.clearBlocked).Inv cfg A where
  initialized := rfl
  order := horder
  chunkSize := hchunk
  fits := by
    rw [← horder]
    exact checkInfo_fits (openInfo_ok hm).1
  map := ⟨m, rfl, hsane⟩
  panicked := hpanic
  converged hc := by
    rw [show s.converged = true from hc] at hconv
    exact absurd hconv.symm Bool.false_ne_true
  owns t th ht := by
    have hsome : s.threads t = some th := ht
    rw [hthreads t] at hsome
    cases hsome
  content entry hp := by
    obtain ⟨hdisk, hstable, hintact⟩ := hcontent entry hp
    exact ⟨hdisk, hstable, fun _ key ho => hintact key ho.1 ho.2.1 ho.2.2.1⟩
  threads t th ht := by
    have hsome : s.threads t = some th := ht
    rw [hthreads t] at hsome
    cases hsome

/-- A page that the bootstrap of a mode without INFO takes. -/
theorem bootstrap_initialized (hi : s.initialized = false) (hconv : s.converged = false)
    (h : (s.bootstrap cfg (.ok info)).initialized = true) :
    ∃ m, openInfo cfg s info = .ok m ∧ s.bootstrap cfg (.ok info) =
      { s with info := info, map := some m, initialized := true }.clearBlocked := by
  have hnot : ¬(s.initialized = true ∨ s.converged = true) := by
    rw [hi, hconv]
    simp
  unfold bootstrap at h ⊢
  rw [if_neg hnot] at h ⊢
  dsimp only at h ⊢
  cases hopen : openInfo cfg s info with
  | error fault =>
    rw [hopen] at h
    rw [show s.initialized = true from h] at hi
    cases hi
  | ok m => exact ⟨m, rfl, rfl⟩

/-- The map of a new file. -/
theorem sane_new (config : MapConfig) :
    HydrationMap.Sane cfg A config ⟨config, mapHeader config, (mapHeader config).length, 0, ∅, ∅, ∅⟩ := by
  refine ⟨[], ⟨rfl, holds_mapHeader _, length_mapHeader _, rfl, rfl, ?_, ?_⟩, nodup_nil, ?_, ?_,
    subset_rfl⟩
  · simp
  · simp
  · exact nofun
  · exact nofun

/-- A restored volume whose bootstrap took INFO has the invariant. -/
theorem Inv.bootstrap (horder : info.order = A.order) (hchunk : info.chunkSize = A.chunkSize)
    (h : ((materialized A).bootstrap cfg (.ok info)).initialized = true) :
    ((materialized A).bootstrap cfg (.ok info)).Inv cfg A := by
  obtain ⟨m, hm, hs⟩ := bootstrap_initialized rfl rfl h
  rw [hs]
  obtain ⟨-, rfl⟩ := openHydrationMap_nil (openInfo_ok hm).2.2
  refine Inv.of_opened (fun _ => rfl) rfl rfl horder hchunk hm (sane_new _) fun entry _ => ?_
  refine ⟨Archive.warm_sparse entry, Archive.warm_sparse entry, ?_⟩
  rintro key hkey rfl -
  exact Archive.intact_base hkey

section

variable (h : s.Inv cfg A)
include h

private theorem Inv.ambient (hinit : s'.initialized = s.initialized)
    (hinfo : s'.info = s.info) (hmap : s'.map = s.map) (hpanic : s'.panicked = s.panicked)
    (hthreads : s'.threads = s.threads) (hlocks : s'.locks = s.locks)
    (hconv : s'.converged = true → s.AllDurable A) (hev : s.Evolves A s')
    (hfile : ∀ e, s.SameFile A s' e) (hcontent : s'.ContentOk A) : s'.Inv cfg A where
  initialized := hinit.trans h.initialized
  order := by rw [hinfo]; exact h.order
  chunkSize := by rw [hinfo]; exact h.chunkSize
  fits := h.fits
  map := by rw [hmap, hinfo]; exact h.map
  panicked := hpanic.trans h.panicked
  converged hc := hev.allDurable (hconv hc)
  owns t th ht lock hl := by
    rw [hthreads] at ht
    rw [hlocks]
    exact h.owns t th ht lock hl
  content := hcontent
  threads t th ht := by
    rw [hthreads] at ht
    obtain ⟨hnodup, goal, facts, hfacts, hgoal, hty⟩ := h.threads t th ht
    refine ⟨hnodup, goal, facts, fun f hf => ⟨?_, (hfacts f hf).2⟩, hgoal, hty⟩
    refine (hfacts f hf).1.evolve hev h.warm ?_ fun e _ => .inl (hfile e)
    rintro key rfl
    have hcold : key ∉ s.hydratedKeys := (hfacts _ hf).1
    unfold hydratedKeys at hcold ⊢
    rwa [hmap]

private theorem Inv.idle (hdata : SameData A s s') (hinit : s'.initialized = s.initialized)
    (hinfo : s'.info = s.info) (hpanic : s'.panicked = s.panicked)
    (hthreads : s'.threads = s.threads) (hlocks : s'.locks = s.locks)
    (hconv : s'.converged = true → s.AllDurable A) : s'.Inv cfg A := by
  have hev : s.Evolves A s' := by
    refine hdata.evolves fun key hc => .inl ?_
    obtain ⟨t, th, ht, hc⟩ := hc
    exact ⟨t, th, by rw [hthreads]; exact ht, hc⟩
  exact h.ambient hinit hinfo hdata.map hpanic hthreads hlocks hconv hev hdata.sameFile
    (hdata.contentOk hev h.content)

private theorem Inv.health (health : Health) : ({ s with health := health } : Machine).Inv cfg A :=
  h.idle ⟨rfl, rfl, rfl, rfl, rfl, fun _ hp => hp, id⟩ rfl rfl rfl rfl rfl h.converged

private theorem Inv.healthCheck (reply : Except RestoreError Unit) :
    (s.healthCheck reply).Inv cfg A := by
  unfold Machine.healthCheck
  split
  · cases reply with
    | ok | error => exact h.health _
  · exact h

/-- The mode may call itself converged once every stored chunk is marked. -/
theorem Inv.setConverged (hall : s.AllDurable A) :
    ({ s with converged := true } : Machine).Inv cfg A :=
  h.idle ⟨rfl, rfl, rfl, rfl, rfl, fun _ hp => hp, id⟩ rfl rfl rfl rfl rfl fun _ => hall

private theorem Inv.converge : s.converge.Inv cfg A := by
  unfold Machine.converge
  split
  · exact h
  next m hm =>
  split
  · next hall =>
    refine h.setConverged fun key hkey => ?_
    rw [← h.order] at hkey
    rw [Inv.durableKeys_eq hm]
    exact of_decide_eq_true (all_eq_true.mp hall.2 key hkey)
  · exact h

private theorem Inv.unlink (linked : Entry → Bool) :
    ({ s with linked := linked } : Machine).Inv cfg A :=
  h.idle ⟨rfl, rfl, rfl, rfl, rfl, fun _ hp => hp, id⟩ rfl rfl rfl rfl rfl h.converged

private theorem Inv.fsync (entry : Entry) : (s.next cfg A (.fsync entry)).Inv cfg A := by
  have hsynced : Synced s (s.next cfg A (.fsync entry)) entry :=
    ⟨rfl, rfl, rfl, rfl, rfl, rfl, rfl⟩
  have hev : s.Evolves A (s.next cfg A (.fsync entry)) :=
    hsynced.evolves fun key hc => .inl hc
  exact h.ambient rfl rfl rfl rfl rfl rfl h.converged hev hsynced.sameFile (hsynced.contentOk hev h)

private theorem Inv.sized (entry : Entry) : (Fact.sized entry (s.disk entry).length).Holds A s := by
  intro hp hf key ho x hx
  obtain ⟨b, hb⟩ := Option.isSome_iff_exists.mp hx
  obtain ⟨hwarm, -, hintact⟩ := h.content entry hp
  rw [hwarm.length]
  exact (hintact hf key ho x b hb).1

private theorem Inv.start (t : Tid) (call : Call) : (s.start cfg t call).Inv cfg A := by
  -- a new thread holds nothing, so that the others lose nothing
  have hnew : ∀ th : Thread, s.threads t = none → th.held = [] →
      (∀ s' : Machine, (∀ f : Fact, f.Holds A s → f.Holds A s') → th.Ok cfg A s') →
      ({ s with threads := Function.update s.threads t (some th) } : Machine).Inv cfg A := by
    intro th hnone hheld hok
    generalize hs' : ({ s with threads := Function.update s.threads t (some th) } : Machine) = s'
    have hthreads : s'.threads = Function.update s.threads t (some th) := by
      subst hs'
      rfl
    have hdata : SameData A s s' := by
      subst hs'
      exact ⟨rfl, rfl, rfl, rfl, rfl, fun _ hp => hp, id⟩
    have hmode : SameMode s s' := by
      subst hs'
      exact ⟨rfl, rfl, rfl, rfl, rfl⟩
    have hlocks : s'.locks = s.locks := by
      subst hs'
      rfl
    have hpanic : s'.panicked = s.panicked := by
      subst hs'
      rfl
    have hev : s.Evolves A s' := by
      refine hdata.evolves fun key hc => .inl ?_
      obtain ⟨u, thu, hu, hc⟩ := hc
      have hut : u ≠ t := by
        rintro rfl
        rw [hnone] at hu
        cases hu
      exact ⟨u, thu, by rw [hthreads, Function.update_of_ne hut]; exact hu, hc⟩
    have hmine : ∀ u thu, u ≠ t → s.threads u = some thu → ∀ lock ∈ thu.held,
        lock ∉ ([] : List Lock) := fun _ _ _ _ _ _ => not_mem_nil
    refine h.advance hmine hmode hthreads
      (fun lock u _ hu => by rw [hlocks]; exact hu) ?_ hev ?_ (fun e => .inl (hdata.sameFile e)) ?_
      (hpanic.trans h.panicked) (hdata.contentOk hev h.content)
      (hok s' fun f hf => hdata.holds hev h hf)
    · rw [hheld]
      exact nofun
    · intro key hin hout
      rw [hdata.hydratedKeys] at hin
      exact absurd hin hout
    · rw [hdata.map, hmode.info]
      exact h.map
  unfold Machine.start
  cases hnone : s.threads t with
  | some th => exact h
  | none =>
    dsimp only
    cases hprog : s.program cfg call with
    | ok prog =>
      refine hnew _ hnone rfl fun s' hkeep => ?_
      obtain ⟨goal, facts, hfacts, hgoal, hty⟩ :=
        startable_program h.order h.chunkSize h.converged h.sized hprog
      refine ⟨nodup_nil, goal, facts, fun f hf => ⟨hkeep f (hfacts f hf).1, fun lock hl => ?_⟩,
        fun _ => hgoal, hty⟩
      rw [(hfacts f hf).2] at hl
      cases hl
    | error error =>
      refine hnew _ hnone rfl fun s' _ => ?_
      exact ⟨nodup_nil, [], [], nofun,
        fun he => absurd he (Option.some_ne_none error), .done (nil_subset _)⟩

end

end Machine

/-- An operation of a volume that is served: no crash, and no failure of the map file. -/
def Op.Serves : Op → Prop
  | .step _ env => env.map = .none
  | .crash _ => False
  | _ => True

namespace Machine

variable {cfg : Config} {A : Archive} {s s' : Machine} {t : Tid}

theorem Inv.next (h : s.Inv cfg A) {op : Op} (hop : op.Serves) : (s.next cfg A op).Inv cfg A := by
  cases op with
  | start t call => exact h.start t call
  | step t env => exact h.step t hop
  | bootstrap reply =>
    change (s.bootstrap cfg reply).Inv cfg A
    unfold Machine.bootstrap
    rw [if_pos (.inl h.initialized)]
    exact h.health _
  | health reply => exact h.healthCheck reply
  | converge => exact h.converge
  | unlink entry => exact h.unlink _
  | fsync entry => exact h.fsync entry
  | crash keep => exact absurd hop id

theorem Inv.run (h : s.Inv cfg A) {ops : List Op} (hops : ∀ op ∈ ops, op.Serves) :
    (s.run cfg A ops).Inv cfg A := by
  induction ops generalizing s with
  | nil => exact h
  | cons op ops ih =>
    exact ih (h.next (hops op mem_cons_self)) fun o ho => hops o (mem_cons_of_mem _ ho)

/-- The guarantees of a volume that is served while it is restored. Files that the store has
dropped, unlinked and without a reference, are left out. -/
structure Served (cfg : Config) (A : Archive) (s : Machine) : Prop where
  /-- A range that `EnsureHydrated` let pass reads as the user operations over the sealed content. -/
  reads : ∀ t th id offset length entry, s.threads t = some th →
    th.call = .ensureHydrated id offset length → th.prog = [] → th.error = none →
    cfg.bindings id = some entry → s.present entry = true →
    (s.disk entry).length = (s.content A entry).length ∧
      ∀ x, offset ≤ x → x < offset + length →
        (s.disk entry).getD x 0 = (s.content A entry).getD x 0
  /-- No two threads hold one lock. -/
  exclusive : ∀ t th u thu lock, s.threads t = some th → s.threads u = some thu →
    lock ∈ th.held → lock ∈ thu.held → t = u
  /-- Sealed bytes go only into a locked chunk that is not marked. -/
  installs : ∀ t th key rest, s.threads t = some th → th.prog = .install key :: rest →
    key ∈ A.order ∧ key ∉ s.durableKeys ∧ .shard (chunkLock key) ∈ th.held ∧
      .entry key.entry ∈ th.held
  /-- A write runs while every stored chunk it overlaps is marked and locked. -/
  writes : ∀ t th entry op rest, s.threads t = some th →
    th.prog = .apply (some entry) (.range op) :: rest → s.AllDurable A ∨
      ∀ key ∈ A.order, key.entry = entry → ¬A.Outside key op.lo op.hi →
        key ∈ s.durableKeys ∧ .shard (chunkLock key) ∈ th.held
  /-- A truncate runs while every stored chunk of the file is locked, and one that it cuts is
  marked. -/
  truncates : ∀ t th entry size rest, s.threads t = some th →
    th.prog = .apply (some entry) (.truncate size) :: rest → s.AllDurable A ∨
      ∀ key ∈ A.order, key.entry = entry → .shard (chunkLock key) ∈ th.held ∧
        (s.present entry = true → s.storageFailed = false →
          key ∈ s.durableKeys ∨ size ≤ A.chunkStart key ∨
            ∀ x, (A.sealedAt key x).isSome → x < size)
  /-- A chunk that is not marked has its sealed bytes in the content, unless a truncate that has
  cut it off is about to mark it and still holds its lock. -/
  unmarked : ∀ entry, s.present entry = true → s.storageFailed = false →
    ∀ key ∈ A.order, key.entry = entry → key ∉ s.durableKeys →
      A.Intact key (s.content A entry) ∨ ∃ t th, s.threads t = some th ∧ th.Closing A key ∧
        .shard (chunkLock key) ∈ th.held
  /-- Where the last `fdatasync` of a file differs from the operations of that moment, a stored
  chunk is not marked. -/
  synced : ∀ entry, s.present entry = true →
    (s.stable entry).length = (s.stableContent A entry).length ∧
      ∀ x, (s.stable entry).getD x 0 = (s.stableContent A entry).getD x 0 ∨
        ∃ key ∈ A.order, key.entry = entry ∧ key ∉ s.durableKeys ∧ (A.sealedAt key x).isSome
  panicked : s.panicked = false

section Served

variable {th : Thread} {entry : Entry}

private theorem Inv.served_reads (h : s.Inv cfg A) {id : Identity} {offset length : Nat}
    (hth : s.threads t = some th) (hcall : th.call = .ensureHydrated id offset length)
    (hprog : th.prog = []) (herr : th.error = none) (hbind : cfg.bindings id = some entry)
    (hp : s.present entry = true) :
    (s.disk entry).length = (s.content A entry).length ∧ ∀ x, offset ≤ x → x < offset + length →
        (s.disk entry).getD x 0 = (s.content A entry).getD x 0 := by
  obtain ⟨-, goal, facts, hfacts, hgoal, hty⟩ := h.threads t th hth
  have hdone : ∀ f ∈ goal, f.Holds A s := by
    rw [hprog] at hty
    intro f hf
    exact (hfacts f (hty.done_inv hf)).1
  have hreach := hgoal herr
  rw [hcall] at hreach
  refine ⟨(h.warm entry hp).length, fun x hlo hhi => ?_⟩
  rcases (h.warm entry hp).bytes x with heq | ⟨key, hkey, hentry, hcold, hx⟩
  · exact heq
  · rcases hreach entry hbind key hkey hentry with hf | hf | hout
    · exact absurd (hdone _ hf) hcold
    · exact absurd (h.durable_subset (hdone _ hf key hkey)) hcold
    · exact absurd ⟨hlo, hhi⟩ (hout.sealed hkey hx)

variable {key : ChunkKey} {rest : List Instr}

private theorem Inv.served_installs (h : s.Inv cfg A)
    (hth : s.threads t = some th) (hprog : th.prog = .install key :: rest) :
    key ∈ A.order ∧ key ∉ s.durableKeys ∧ .shard (chunkLock key) ∈ th.held ∧
      .entry key.entry ∈ th.held := by
  obtain ⟨-, goal, facts, hfacts, -, hty⟩ := h.threads t th hth
  rw [hprog] at hty
  obtain ⟨facts', hkey, hshard, hentry, hcold, -⟩ := hty.head
  have hout : key ∉ s.hydratedKeys := (hfacts _ hcold).1
  exact ⟨hkey, fun hd => hout (h.durable_subset hd), hshard, hentry⟩

private theorem Inv.served_writes (h : s.Inv cfg A) {op : RangeOp}
    (hth : s.threads t = some th) (hprog : th.prog = .apply (some entry) (.range op) :: rest) :
    s.AllDurable A ∨ ∀ key ∈ A.order, key.entry = entry → ¬A.Outside key op.lo op.hi →
      key ∈ s.durableKeys ∧ .shard (chunkLock key) ∈ th.held := by
  obtain ⟨-, goal, facts, hfacts, -, hty⟩ := h.threads t th hth
  rw [hprog] at hty
  cases hty.apply_inv with
  | converged hall => exact .inl (hfacts _ hall).1
  | range _ hkeys =>
    right
    intro key hkey hentry hover
    rcases hkeys key hkey hentry with ⟨hd, hshard⟩ | hout
    · exact ⟨(hfacts _ hd).1, hshard⟩
    · exact absurd hout hover

private theorem Inv.served_truncates (h : s.Inv cfg A) {size : Nat}
    (hth : s.threads t = some th) (hprog : th.prog = .apply (some entry) (.truncate size) :: rest) :
    s.AllDurable A ∨ ∀ key ∈ A.order, key.entry = entry → .shard (chunkLock key) ∈ th.held ∧
      (s.present entry = true → s.storageFailed = false →
        key ∈ s.durableKeys ∨ size ≤ A.chunkStart key ∨
          ∀ x, (A.sealedAt key x).isSome → x < size) := by
  obtain ⟨-, goal, facts, hfacts, -, hty⟩ := h.threads t th hth
  have hnot := not_closing_of_head (A := A) hprog
  rw [hprog] at hty
  cases hty.apply_inv with
  | converged hall => exact .inl (hfacts _ hall).1
  | @truncate _ but _ _ hentry hfile htail hbut =>
    right
    intro key hkey he
    refine ⟨hfile key hkey he, fun hp hf => ?_⟩
    by_cases hd : key ∈ s.durableKeys
    · exact .inl hd
    right
    by_contra hcut
    push Not at hcut
    obtain ⟨hstart, x, hx, hsize⟩ := hcut
    have hopen : s.Open A entry key :=
      ⟨hkey, he, hd, h.not_closing hth (he ▸ hentry) (hnot key)⟩
    have hne : some key ≠ but := fun heq => hd (hfacts _ (hbut key heq.symm)).1
    exact absurd ((hfacts _ htail).1 hp hf key hopen hne x hx hsize) (not_le.mpr hstart)

private theorem closing_shard {goal : List Fact} {held : List Lock}
    {facts : List Fact} (hc : th.Closing A key) (hkey : key ∈ A.order)
    (hty : Typed cfg A goal held facts th.prog) : .shard (chunkLock key) ∈ held := by
  obtain ⟨keys, size, rest, hp | hp, -⟩ := hc
  · rw [hp] at hty
    obtain ⟨facts', -, hty⟩ := hty.head
    obtain ⟨-, -, -, hfile, -⟩ := hty.head
    exact hfile key hkey rfl
  · rw [hp] at hty
    obtain ⟨-, -, -, hfile, -⟩ := hty.head
    exact hfile key hkey rfl

private theorem Inv.served_unmarked (h : s.Inv cfg A) (hp : s.present entry = true)
    (hf : s.storageFailed = false) (hkey : key ∈ A.order)
    (hentry : key.entry = entry) (hd : key ∉ s.durableKeys) :
    A.Intact key (s.content A entry) ∨ ∃ t th, s.threads t = some th ∧ th.Closing A key ∧
      .shard (chunkLock key) ∈ th.held := by
  by_cases hc : s.Closing A key
  · obtain ⟨t, th, hth, hc⟩ := hc
    obtain ⟨-, goal, facts, -, -, hty⟩ := h.threads t th hth
    exact .inr ⟨t, th, hth, hc, closing_shard hc hkey hty⟩
  · exact .inl ((h.content entry hp).2.2 hf key ⟨hkey, hentry, hd, hc⟩)

theorem Inv.served (h : s.Inv cfg A) : s.Served cfg A where
  reads _ _ _ _ _ _ hth hcall hprog herr hbind hp :=
    h.served_reads hth hcall hprog herr hbind hp
  exclusive t th u thu lock hth hthu hl hlu := by
    by_contra hne
    exact h.exclusive hth u thu (Ne.symm hne) hthu lock hlu hl
  installs _ _ _ _ hth hprog := h.served_installs hth hprog
  writes _ _ _ _ _ hth hprog := h.served_writes hth hprog
  truncates _ _ _ _ _ hth hprog := h.served_truncates hth hprog
  unmarked _ hp hf _ hkey hentry hd := h.served_unmarked hp hf hkey hentry hd
  synced entry hp := ⟨(h.content entry hp).2.1.length, (h.content entry hp).2.1.bytes⟩
  panicked := h.panicked

end Served

/-- Lazy restore loses no user data: whatever calls and drain attempts interleave after the
bootstrap of a restored volume, and however fetches, writes and syncs fail, every state keeps the
guarantees of a served volume. -/
theorem served_run {info : InfoPage} (horder : info.order = A.order)
    (hchunk : info.chunkSize = A.chunkSize)
    (hboot : ((materialized A).bootstrap cfg (.ok info)).initialized = true) {ops : List Op}
    (hops : ∀ op ∈ ops, op.Serves) :
    (((materialized A).bootstrap cfg (.ok info)).run cfg A ops).Served cfg A :=
  ((Inv.bootstrap horder hchunk hboot).run hops).served

end Machine

/-- Emptying a cold file: the operation runs, and has run, while the stored chunks it cuts off are
locked but not marked. -/
theorem truncate_before_mark :
    let s := ((Machine.materialized twoChunks).bootstrap oneFile
      (.ok twoChunksInfo)).run oneFile twoChunks
        (.start 0 (.truncate 0 0) :: replicate 5 (.step 0 .ok))
    s.initialized = true ∧ s.ran = [0] ∧ s.disk 0 = [] ∧ ⟨0, 0⟩ ∉ s.durableKeys ∧
      ⟨0, 1⟩ ∉ s.durableKeys := by
  decide +kernel

/-- The guarantees in the middle of that truncate, after a drain attempt whose fetch failed. -/
theorem served_run_truncate :
    (((Machine.materialized twoChunks).bootstrap oneFile (.ok twoChunksInfo)).run oneFile twoChunks
      (.start 1 (.drain ⟨0, 1⟩) :: replicate 5 (.step 1 { Env.ok with fetch := some .blocked }) ++
        .start 0 (.truncate 0 0) :: replicate 5 (.step 0 .ok))).Served oneFile twoChunks := by
  refine Machine.served_run rfl rfl (by decide +kernel) fun op hop => ?_
  rcases mem_append.mp hop with hop | hop <;>
  · rcases mem_cons.mp hop with rfl | hop
    · trivial
    · rw [eq_of_mem_replicate hop]
      rfl

end PortableFS.Restore
