import PortableFS.Restore.Serving

/-!
# Restarting a volume that is being restored

A crash of a restoring volume and the next bootstrap with the same page of INFO,
`vcs/internal/restoremode/mode.go:124`. The bootstrap checks the sealed drain list against the
tree as it is, so that a file a user has shortened or removed makes the volume corrupt. As long as
every file stays longer than the start of its last stored chunk, the bootstrap after a crash at
any point completes, and every file continues from the operations of its last `fdatasync`.
-/

namespace PortableFS.Restore

open Base.ByteFile Function

/-- The next instruction of a thread runs an operation on a file. -/
def Machine.Applies (s : Machine) (t : Tid) (env : Env) (entry : Entry) (op : FileOp) : Prop :=
  ∃ th rest, s.threads t = some th ∧ th.prog = .apply (some entry) op :: rest ∧
    env.refused = false

/-- An operation that leaves every stored chunk of every file in the reach of the next bootstrap:
no file is unlinked or shortened to the start of a stored chunk, no truncate runs after the storage
has failed, the map file does not fail, and the hydrator answers with its one page. Calls start
once the mode has INFO. -/
def Op.Keeps (A : Archive) (info : InfoPage) (s : Machine) : Op → Prop
  | .start _ _ => s.initialized = true
  | .step t env => env.map = .none ∧ ∀ entry op, s.Applies t env entry op →
      (∀ key ∈ A.order, key.entry = entry →
        A.chunkStart key < (op.run (s.disk entry)).length) ∧
      ((∃ size, op = .truncate size) → s.storageFailed = false)
  | .bootstrap (.ok page) => page = info
  | .unlink _ => False
  | _ => True

/-- The states of a restored volume over any number of crashes and restarts. -/
inductive Machine.Restoring (cfg : Config) (A : Archive) (info : InfoPage) : Machine → Prop where
  | materialized : Restoring cfg A info (Machine.materialized A)
  | next {s : Machine} (h : Restoring cfg A info s) (op : Op) (hop : op.Keeps A info s) :
      Restoring cfg A info (s.next cfg A op)

namespace Machine

variable {cfg : Config} {A : Archive} {info : InfoPage} {s s' : Machine}

/-- The content reaches into every stored chunk of its file and has the sealed bytes of those that
are not marked. -/
def Reaches (A : Archive) (marked : Finset ChunkKey) (content : Entry → List UInt8) : Prop :=
  ∀ key ∈ A.order, A.chunkStart key < (content key.entry).length ∧
    (key ∉ marked → A.Intact key (content key.entry))

/-- Every file is there, and reaches into its stored chunks, as it is and as last synced. -/
structure Whole (A : Archive) (marked : Finset ChunkKey) (s : Machine) : Prop where
  present : ∀ entry, s.present entry = true
  linked : ∀ entry, s.linked entry = true
  now : Reaches A marked (s.content A)
  synced : Reaches A marked (s.stableContent A)

variable {marked marked' : Finset ChunkKey}

theorem Reaches.mono {content : Entry → List UInt8}
    (h : Reaches A marked content) (hsub : marked ⊆ marked') : Reaches A marked' content :=
  fun key hkey => ⟨(h key hkey).1, fun hout => (h key hkey).2 fun hin => hout (hsub hin)⟩

/-- A volume before its bootstrap: no thread, and a map file that opens with the marks of the
files as they are. -/
structure Waiting (cfg : Config) (A : Archive) (info : InfoPage) (s : Machine) : Prop where
  initialized : s.initialized = false
  converged : s.converged = false
  panicked : s.panicked = false
  threads : ∀ t, s.threads t = none
  noMap : s.map = none
  opens : ∃ m, openHydrationMap (mapConfig cfg info) s.mapFile = .ok m ∧
    m.Sane cfg A (mapConfig cfg info) ∧ m.hydrated = m.durable ∧ s.Whole A m.durable ∧
    ∀ entry, A.Warm entry (s.disk entry) (s.content A entry) m.durable ∧
      A.Warm entry (s.stable entry) (s.stableContent A entry) m.durable

/-- A volume between crashes: before its bootstrap, or served. -/
def Sound (cfg : Config) (A : Archive) (info : InfoPage) (s : Machine) : Prop :=
  s.Waiting cfg A info ∨ (s.Inv cfg A ∧ s.info = info ∧ s.Whole A s.durableKeys)

private theorem lt_chunksOf {size n : Nat} {chunkSize : UInt32} (hpos : 0 < chunkSize.toNat)
    (h : n * chunkSize.toNat < size) : n < chunksOf size chunkSize := by
  unfold chunksOf
  rw [if_pos (Nat.lt_of_le_of_lt (Nat.zero_le _) h), Nat.lt_iff_add_one_le,
    Nat.le_div_iff_mul_le hpos, Nat.add_mul]
  omega

/-- A drain list that was in order still is if all its files are there and reach into its
chunks. -/
private theorem checkOrder_of_whole {seen keys : List ChunkKey} (hpos : 0 < info.chunkSize.toNat)
    (hs' : ∀ key ∈ keys, s'.present key.entry = true ∧
      key.chunk.toNat * info.chunkSize.toNat < (s'.disk key.entry).length)
    (h : s.checkOrder info seen keys = .ok ()) : s'.checkOrder info seen keys = .ok () := by
  induction keys generalizing seen with
  | nil => rfl
  | cons key keys ih =>
    unfold checkOrder at h ⊢
    obtain ⟨hpresent, hsize⟩ := hs' key List.mem_cons_self
    split_ifs at h with hentry hseen hp hchunk
    rw [if_neg hentry, if_neg hseen, hpresent, if_neg (by simp),
      if_neg (not_le.mpr (lt_chunksOf hpos hsize))]
    exact ih (fun k hk => hs' k (List.mem_cons_of_mem _ hk)) h

/-- What is known of the page: the bootstrap of the fresh volume took it. -/
structure FirstBoot (cfg : Config) (A : Archive) (info : InfoPage) : Prop where
  order : info.order = A.order
  chunkSize : info.chunkSize = A.chunkSize
  took : ((materialized A).bootstrap cfg (.ok info)).initialized = true

private theorem Waiting.openInfo (hinfo : FirstBoot cfg A info) (h : s.Waiting cfg A info) :
    ∃ m, Machine.openInfo cfg s info = .ok m ∧ m.Sane cfg A (mapConfig cfg info) ∧
      m.hydrated = m.durable ∧ s.Whole A m.durable ∧
      ∀ entry, A.Warm entry (s.disk entry) (s.content A entry) m.durable ∧
        A.Warm entry (s.stable entry) (s.stableContent A entry) m.durable := by
  obtain ⟨m, hm, hsane, heq, hwhole, hwarm⟩ := h.opens
  obtain ⟨m₀, hm₀, -⟩ := bootstrap_initialized rfl rfl hinfo.took
  obtain ⟨hcheck, horder, -⟩ := openInfo_ok hm₀
  have hpos : 0 < info.chunkSize.toNat := by
    rw [hinfo.chunkSize]
    exact A.chunkSize_pos
  have horder' : s.checkOrder info [] info.order = .ok () := by
    refine checkOrder_of_whole hpos (fun key hkey => ?_) horder
    rw [hinfo.order] at hkey
    rw [hinfo.chunkSize, (hwarm key.entry).1.length]
    exact ⟨hwhole.present key.entry, (hwhole.now key hkey).1⟩
  refine ⟨m, ?_, hsane, heq, hwhole, hwarm⟩
  unfold Machine.openInfo
  rw [hcheck, horder', hm]
  rfl

private theorem Waiting.bootstrap (hinfo : FirstBoot cfg A info) (h : s.Waiting cfg A info) :
    ∃ m, s.bootstrap cfg (.ok info) =
        { s with info := info, map := some m, initialized := true }.clearBlocked ∧
      (s.bootstrap cfg (.ok info)).Inv cfg A ∧ s.Whole A m.durable := by
  obtain ⟨m, hm, hsane, heq, hwhole, hwarm⟩ := h.openInfo hinfo
  have hs : s.bootstrap cfg (.ok info) =
      { s with info := info, map := some m, initialized := true }.clearBlocked := by
    have hnot : ¬(s.initialized = true ∨ s.converged = true) := by
      rw [h.initialized, h.converged]
      simp
    unfold Machine.bootstrap
    rw [if_neg hnot]
    dsimp only
    rw [hm]
  refine ⟨m, hs, ?_, hwhole⟩
  rw [hs]
  refine Inv.of_opened h.threads h.panicked h.converged hinfo.order hinfo.chunkSize hm hsane ?_
  intro entry _
  obtain ⟨hdisk, hstable⟩ := hwarm entry
  refine ⟨heq ▸ hdisk, hstable, ?_⟩
  rintro key hkey rfl hout
  exact (hwhole.now key hkey).2 hout

/-- What a step does to the logs, when every file is there: a sync copies one, and only an
operation of a user appends to one. -/
structure Recorded (s s' : Machine) : Prop where
  present : s'.present = s.present
  log : s'.log = s.log
  stableLog : ∀ entry, s'.stableLog entry = s.stableLog entry ∨ s'.stableLog entry = s.log entry

private theorem recorded_of_eq (hp : s'.present = s.present) (hl : s'.log = s.log)
    (hs : s'.stableLog = s.stableLog) : Recorded s s' :=
  ⟨hp, hl, fun entry => .inl (by rw [hs])⟩

variable {entry : Entry}

private theorem recorded_sync (hp : s'.present = s.present) (hl : s'.log = s.log)
    (hs : s'.stableLog = update s.stableLog entry (s.log entry)) : Recorded s s' := by
  refine ⟨hp, hl, fun e => ?_⟩
  rw [hs]
  by_cases he : e = entry
  · subst he
    exact .inr (update_self ..)
  · exact .inl (update_of_ne he ..)

variable {t : Tid} {th : Thread} {rest : List Instr} {env : Env}

private theorem recorded_exec (hall : ∀ entry, s.present entry = true ∧ s.linked entry = true)
    {i : Instr} (hnot : ∀ entry op, i = .apply (some entry) op → env.refused = true) :
    Recorded s (s.exec A t th rest env i) := by
  rcases exec_cases A s t th rest env i with h | ⟨entry, op, rfl, hrefused⟩ | ⟨key, rfl, hgone⟩
  · exact ⟨h.present, h.log, h.stableLog⟩
  · rw [hnot entry op rfl] at hrefused
    cases hrefused
  · exact absurd (hall key.entry) hgone

private theorem Whole.recorded (h : s.Whole A marked)
    (hr : Recorded s s') (hlinked : s'.linked = s.linked) (hsub : marked ⊆ marked') :
    s'.Whole A marked' where
  present entry := by rw [hr.present]; exact h.present entry
  linked entry := by rw [hlinked]; exact h.linked entry
  now := by
    have hcontent : s'.content A = s.content A := by
      funext entry
      unfold Machine.content
      rw [hr.log]
    rw [hcontent]
    exact h.now.mono hsub
  synced := by
    intro key hkey
    have hcontent : s'.stableContent A key.entry = s.stableContent A key.entry ∨
        s'.stableContent A key.entry = s.content A key.entry := by
      unfold Machine.stableContent Machine.content
      rcases hr.stableLog key.entry with he | he
      · exact .inl (by rw [he])
      · exact .inr (by rw [he])
    rcases hcontent with he | he
    · rw [he]
      exact h.synced.mono hsub key hkey
    · rw [he]
      exact h.now.mono hsub key hkey

variable {op : FileOp}

private theorem Inv.intact_apply (h : s.Inv cfg A) (hwhole : s.Whole A s.durableKeys)
    (hth : s.threads t = some th) (hprog : th.prog = .apply (some entry) op :: rest)
    (hlen : ∀ key ∈ A.order, key.entry = entry → A.chunkStart key < (op.run (s.disk entry)).length)
    (hstorage : (∃ size, op = .truncate size) → s.storageFailed = false) {key : ChunkKey}
    (hkey : key ∈ A.order) (hentry : key.entry = entry) (hout : key ∉ s.durableKeys) :
    A.Intact key (op.run (s.content A entry)) := by
  have hintact : A.Intact key (s.content A entry) := by
    rw [← hentry]
    exact (hwhole.now key hkey).2 hout
  obtain ⟨-, goal, facts, hfacts, -, hty⟩ := h.threads t th hth
  have hnot := not_closing_of_head (A := A) hprog
  have hlenKey := hlen key hkey hentry
  rw [hprog] at hty
  cases hty.apply_inv with
  | metadata => exact hintact
  | converged hall =>
    have hall : s.AllDurable A := (hfacts _ hall).1
    exact absurd (hall key hkey) hout
  | @range op _ _ hkeys =>
    rcases hkeys key hkey hentry with ⟨hd, -⟩ | houtside
    · exact absurd (hfacts _ hd).1 hout
    · exact hintact.range op hkey houtside
  | @truncate size but _ _ hlock _ htail hbut =>
    have hopen : s.Open A entry key :=
      ⟨hkey, hentry, hout, h.not_closing hth (hentry ▸ hlock) (hnot key)⟩
    have hne : some key ≠ but := fun heq => hout (hfacts _ (hbut key heq.symm)).1
    have hsize : (FileOp.run (s.disk entry) (.truncate size)).length = size := length_resize _ _
    rw [hsize] at hlenKey
    refine hintact.resize fun x hx => ?_
    by_contra hge
    have hstart := (hfacts _ htail).1 (hwhole.present entry) (hstorage ⟨size, rfl⟩) key hopen hne x
      hx (Nat.le_of_not_lt hge)
    exact absurd hstart (not_le.mpr hlenKey)

private theorem Whole.applied (h : s.Whole A marked) (hpresent : s'.present = s.present)
    (hlinked : s'.linked = s.linked) (hstable : s'.stableLog = s.stableLog)
    (hlog : s'.log = update s.log entry (s.log entry ++ [op])) (hsub : marked ⊆ marked')
    (hlen : ∀ key ∈ A.order, key.entry = entry →
      A.chunkStart key < (op.run (s.content A entry)).length)
    (hintact : ∀ key ∈ A.order, key.entry = entry → key ∉ marked →
      A.Intact key (op.run (s.content A entry))) : s'.Whole A marked' where
  present e := by rw [hpresent]; exact h.present e
  linked e := by rw [hlinked]; exact h.linked e
  now := by
    refine Reaches.mono (fun key hkey => ?_) hsub
    by_cases he : key.entry = entry
    · have hcontent : s'.content A key.entry = op.run (s.content A entry) := by
        unfold Machine.content
        rw [hlog, he, update_self, Archive.content_append]
      rw [hcontent]
      exact ⟨hlen key hkey he, hintact key hkey he⟩
    · have hcontent : s'.content A key.entry = s.content A key.entry := by
        unfold Machine.content
        rw [hlog, update_of_ne he]
      rw [hcontent]
      exact h.now key hkey
  synced := by
    have hcontent : s'.stableContent A = s.stableContent A := by
      funext e
      unfold Machine.stableContent
      rw [hstable]
    rw [hcontent]
    exact h.synced.mono hsub

private theorem durableKeys_of_eq (h : s'.map = s.map) : s.durableKeys ⊆ s'.durableKeys := by
  unfold durableKeys
  rw [h]

private theorem durableKeys_exec (t : Tid) (th : Thread) (rest : List Instr) (env : Env)
    (i : Instr) : s.durableKeys ⊆ (s.exec A t th rest env i).durableKeys := by
  rcases exec_cases A s t th rest env i with h | ⟨entry, op, rfl, hrefused⟩ | ⟨key, rfl, -⟩
  · cases hm : s.map with
    | none =>
      unfold durableKeys
      rw [hm]
      exact Finset.empty_subset _
    | some m =>
      obtain ⟨m', hm', hsub⟩ := h.marks m hm
      rwa [Inv.durableKeys_eq hm, Inv.durableKeys_eq hm']
  · simp only [exec, hrefused, Bool.false_eq_true, if_false]
    exact durableKeys_of_eq rfl
  · simp only [exec]
    split_ifs <;> exact durableKeys_of_eq rfl

private theorem Whole.step (h : s.Inv cfg A) (hwhole : s.Whole A s.durableKeys)
    (hop : (Op.step t env).Keeps A info s) :
    (s.step A t env).Whole A (s.step A t env).durableKeys := by
  have hinv : (s.step A t env).Inv cfg A := h.step t hop.1
  have hlinked := (sameMode_step A s t env).linked
  unfold Machine.step at hinv hlinked ⊢
  cases hth : s.threads t with
  | none => exact hwhole
  | some th =>
    rw [hth] at hinv hlinked
    dsimp only at hinv hlinked ⊢
    cases hprog : th.prog with
    | nil => exact hwhole
    | cons i rest =>
      rw [hprog] at hinv hlinked
      dsimp only at hinv hlinked ⊢
      have hsub := durableKeys_exec (A := A) (s := s) t th rest env i
      by_cases hnot : ∀ entry op, i = .apply (some entry) op → env.refused = true
      · exact hwhole.recorded
          (recorded_exec (fun e => ⟨hwhole.present e, hwhole.linked e⟩) hnot) hlinked hsub
      push Not at hnot
      obtain ⟨entry, op, rfl, hrefused⟩ := hnot
      have hrefused := Bool.eq_false_of_not_eq_true hrefused
      obtain ⟨hlen, hstorage⟩ := hop.2 entry op ⟨th, rest, hth, hprog, hrefused⟩
      simp only [exec, hrefused, Bool.false_eq_true, if_false] at hinv hsub ⊢
      refine hwhole.applied rfl rfl rfl rfl hsub ?_ ?_
      · intro key hkey he
        have hdisk : (op.run (s.disk entry)).length = (op.run (s.content A entry)).length := by
          have hwarm := (hinv.warm entry (hwhole.present entry)).length
          change (update s.disk entry _ entry).length =
            (A.content entry (update s.log entry _ entry)).length at hwarm
          rwa [update_self, update_self, Archive.content_append] at hwarm
        rw [← hdisk]
        exact hlen key hkey he
      · intro key hkey he hout
        exact h.intact_apply hwhole hth hprog hlen hstorage hkey he hout

/-- The map of a served volume opens again with the same marks. -/
theorem Inv.opens_crash (hinfo : FirstBoot cfg A info) (h : s.Inv cfg A)
    (hpage : s.info = info) (keep : Nat) :
    ∃ m, openHydrationMap (mapConfig cfg info) (s.crash keep).mapFile = .ok m ∧
      m.Sane cfg A (mapConfig cfg info) ∧ m.hydrated = m.durable ∧ m.durable = s.durableKeys := by
  obtain ⟨m, hm, records, hexact, hnodup, hchunk, huser, -⟩ := h.map
  rw [hpage] at hexact
  have hfile : (s.crash keep).mapFile = m.bytes := by
    unfold crash
    dsimp only
    rw [hm]
    dsimp only
    rw [hexact.synced]
    exact List.take_of_length_le (le_max_left _ _)
  obtain ⟨m₀, hm₀, -⟩ := bootstrap_initialized rfl rfl hinfo.took
  obtain ⟨hvalid, -⟩ := openHydrationMap_nil (openInfo_ok hm₀).2.2
  have hbound : records.length ≤ (mapConfig cfg info).maxRecords :=
    (length_le_of_records hnodup hchunk huser).trans (Nat.add_le_add_right h.fits cfg.entries)
  have hholds : Holds (mapConfig cfg info) m.bytes records := hexact.config ▸ hexact.holds
  obtain ⟨m', hm', hexact', hhyd⟩ := openHydrationMap_of_holds hvalid hholds hbound
  have hsame : m'.hydrated = m'.durable := by
    ext key
    rw [hhyd, hexact'.durable]
  refine ⟨m', hfile ▸ hm', ⟨records, hexact', hnodup, hchunk, huser, hsame.ge⟩, hsame, ?_⟩
  ext key
  rw [hexact'.durable, Inv.durableKeys_eq hm, hexact.durable]

private theorem Sound.crash (hinfo : FirstBoot cfg A info) (h : s.Sound cfg A info) (keep : Nat) :
    (s.crash keep).Waiting cfg A info := by
  have hpresent : ∀ {marked}, s.Whole A marked → ∀ e, (s.crash keep).present e = true := by
    intro marked hw e
    change (s.present e && s.linked e) = true
    rw [hw.present e, hw.linked e]
    rfl
  rcases h with hwait | ⟨hinv, hpage, hwhole⟩
  · obtain ⟨m, hm, hsane, heq, hwhole, hwarm⟩ := hwait.opens
    refine ⟨rfl, rfl, rfl, fun _ => rfl, rfl, m, ?_, hsane, heq,
      ⟨hpresent hwhole, hwhole.linked, hwhole.synced, hwhole.synced⟩,
      fun e => ⟨(hwarm e).2, (hwarm e).2⟩⟩
    have hfile : (s.crash keep).mapFile = s.mapFile := by
      unfold Machine.crash
      dsimp only
      rw [hwait.noMap]
    rw [hfile]
    exact hm
  · obtain ⟨m, hm, hsane, heq, hdur⟩ := hinv.opens_crash hinfo hpage keep
    refine ⟨rfl, rfl, rfl, fun _ => rfl, rfl, m, hm, hsane, heq, ?_, fun e => ?_⟩
    · rw [hdur]
      exact ⟨hpresent hwhole, hwhole.linked, hwhole.synced, hwhole.synced⟩
    · rw [hdur]
      have hstable := (hinv.content e (hwhole.present e)).2.1
      exact ⟨hstable, hstable⟩

variable {op : Op}

private theorem Waiting.next (hinfo : FirstBoot cfg A info) (h : s.Waiting cfg A info)
    (hop : op.Keeps A info s) : (s.next cfg A op).Sound cfg A info := by
  have hhealth : ∀ health : Health, ({ s with health := health } : Machine).Waiting cfg A info := by
    intro health
    exact ⟨h.initialized, h.converged, h.panicked, h.threads, h.noMap, by
      obtain ⟨m, hm, hsane, heq, hw, hwarm⟩ := h.opens
      exact ⟨m, hm, hsane, heq, ⟨hw.present, hw.linked, hw.now, hw.synced⟩, hwarm⟩⟩
  have hnot : ¬(s.initialized = true ∨ s.converged = true) := by
    rw [h.initialized, h.converged]
    simp
  cases op with
  | start t call =>
    have hinit : s.initialized = true := hop
    rw [h.initialized] at hinit
    exact absurd hinit Bool.false_ne_true
  | step t env =>
    left
    change (s.step A t env).Waiting cfg A info
    unfold Machine.step
    rw [h.threads t]
    exact h
  | bootstrap reply =>
    change (s.bootstrap cfg reply).Sound cfg A info
    cases reply with
    | error error =>
      left
      unfold Machine.bootstrap
      rw [if_neg hnot]
      exact hhealth _
    | ok page =>
      obtain rfl : page = info := hop
      right
      obtain ⟨m, hs, hinv, hwhole⟩ := h.bootstrap hinfo
      refine ⟨hinv, by rw [hs]; rfl, ?_⟩
      rw [hs]
      exact ⟨hwhole.present, hwhole.linked, hwhole.now, hwhole.synced⟩
  | health reply =>
    left
    change (s.healthCheck reply).Waiting cfg A info
    unfold Machine.healthCheck
    rw [if_neg (by rw [h.initialized]; simp)]
    exact h
  | converge =>
    left
    change s.converge.Waiting cfg A info
    unfold Machine.converge
    rw [h.noMap]
    exact h
  | unlink entry => exact absurd hop id
  | fsync entry =>
    left
    obtain ⟨m, hm, hsane, heq, hwhole, hwarm⟩ := h.opens
    have hsynced : Synced s (s.next cfg A (.fsync entry)) entry :=
      ⟨rfl, rfl, rfl, rfl, rfl, rfl, rfl⟩
    have hwhole' : (s.next cfg A (.fsync entry)).Whole A m.durable :=
      hwhole.recorded (recorded_sync rfl rfl rfl) rfl subset_rfl
    refine ⟨h.initialized, h.converged, h.panicked, h.threads, h.noMap, m, hm, hsane, heq, hwhole',
      fun e => ⟨(hwarm e).1, ?_⟩⟩
    by_cases he : e = entry
    · subst he
      rw [(hsynced.self A).1, (hsynced.self A).2]
      exact (hwarm e).1
    · rw [(hsynced.other A he).1, (hsynced.other A he).2]
      exact (hwarm e).2
  | crash keep => exact .inl (Sound.crash hinfo (.inl h) keep)

/-- The logs, the map and the tree are untouched. -/
structure Untouched (s s' : Machine) : Prop where
  info : s'.info = s.info
  map : s'.map = s.map
  linked : s'.linked = s.linked
  recorded : Recorded s s'

private theorem untouched_start (t : Tid) (call : Call) : Untouched s (s.start cfg t call) := by
  unfold Machine.start
  split
  · exact ⟨rfl, rfl, rfl, recorded_of_eq rfl rfl rfl⟩
  · split <;> exact ⟨rfl, rfl, rfl, recorded_of_eq rfl rfl rfl⟩

private theorem untouched_bootstrap (h : s.initialized = true)
    (reply : Except RestoreError InfoPage) : Untouched s (s.bootstrap cfg reply) := by
  unfold Machine.bootstrap
  rw [if_pos (.inl h)]
  exact ⟨rfl, rfl, rfl, recorded_of_eq rfl rfl rfl⟩

private theorem untouched_healthCheck (reply : Except RestoreError Unit) :
    Untouched s (s.healthCheck reply) := by
  unfold Machine.healthCheck
  split
  · split <;> exact ⟨rfl, rfl, rfl, recorded_of_eq rfl rfl rfl⟩
  · exact ⟨rfl, rfl, rfl, recorded_of_eq rfl rfl rfl⟩

private theorem untouched_converge : Untouched s s.converge := by
  unfold Machine.converge
  split
  · exact ⟨rfl, rfl, rfl, recorded_of_eq rfl rfl rfl⟩
  · split <;> exact ⟨rfl, rfl, rfl, recorded_of_eq rfl rfl rfl⟩

/-- What an operation does to a served volume that is neither a step of a thread nor an unlink. -/
theorem Inv.untouched (h : s.Inv cfg A) (hop : op.Serves) :
    (∃ t env, op = .step t env) ∨ (∃ entry, op = .unlink entry) ∨
      Untouched s (s.next cfg A op) := by
  cases op with
  | start t call => exact .inr (.inr (untouched_start t call))
  | step t env => exact .inl ⟨t, env, rfl⟩
  | bootstrap reply => exact .inr (.inr (untouched_bootstrap h.initialized reply))
  | health reply => exact .inr (.inr (untouched_healthCheck reply))
  | converge => exact .inr (.inr untouched_converge)
  | unlink entry => exact .inr (.inl ⟨entry, rfl⟩)
  | fsync entry => exact .inr (.inr ⟨rfl, rfl, rfl, recorded_sync rfl rfl rfl⟩)
  | crash keep => exact absurd hop id

/-- Marks stay, and the page stays. -/
theorem Inv.durableKeys_next (h : s.Inv cfg A) (hop : op.Serves) :
    s.durableKeys ⊆ (s.next cfg A op).durableKeys ∧ (s.next cfg A op).info = s.info := by
  rcases h.untouched hop with ⟨t, env, rfl⟩ | ⟨entry, rfl⟩ | hu
  · refine ⟨?_, (sameMode_step A s t env).info⟩
    change s.durableKeys ⊆ (s.step A t env).durableKeys
    unfold Machine.step
    split
    · exact subset_rfl
    · split
      · exact subset_rfl
      · exact durableKeys_exec ..
  · exact ⟨durableKeys_of_eq rfl, rfl⟩
  · exact ⟨durableKeys_of_eq hu.map, hu.info⟩

section

variable (hinfo : FirstBoot cfg A info)
include hinfo

private theorem Sound.next (h : s.Sound cfg A info)
    (hop : op.Keeps A info s) : (s.next cfg A op).Sound cfg A info := by
  rcases h with hwait | ⟨hinv, hpage, hwhole⟩
  · exact hwait.next hinfo hop
  have hidle : op.Serves → Untouched s (s.next cfg A op) → (s.next cfg A op).Sound cfg A info := by
    intro hserves hu
    exact .inr ⟨hinv.next hserves, hu.info.trans hpage,
      hwhole.recorded hu.recorded hu.linked (durableKeys_of_eq hu.map)⟩
  cases op with
  | start t call => exact hidle trivial (untouched_start t call)
  | step t env =>
    exact .inr ⟨hinv.step t hop.1, (sameMode_step A s t env).info.trans hpage,
      Whole.step hinv hwhole hop⟩
  | bootstrap reply => exact hidle trivial (untouched_bootstrap hinv.initialized reply)
  | health reply => exact hidle trivial (untouched_healthCheck reply)
  | converge => exact hidle trivial untouched_converge
  | unlink entry => exact absurd hop id
  | fsync entry => exact hidle trivial ⟨rfl, rfl, rfl, recorded_sync rfl rfl rfl⟩
  | crash keep => exact .inl (Sound.crash hinfo (.inr ⟨hinv, hpage, hwhole⟩) keep)

private theorem waiting_materialized : (materialized A).Waiting cfg A info := by
  obtain ⟨m, hm, -⟩ := bootstrap_initialized rfl rfl hinfo.took
  have hopen := (openInfo_ok hm).2.2
  have hreach : Reaches A m.durable A.base := by
    intro key hkey
    refine ⟨?_, fun _ => Archive.intact_base hkey⟩
    rw [Archive.length_base]
    exact A.start_lt key hkey
  obtain ⟨-, rfl⟩ := openHydrationMap_nil hopen
  exact ⟨rfl, rfl, rfl, fun _ => rfl, rfl, _, hopen, sane_new (mapConfig cfg info), rfl,
    ⟨fun _ => rfl, fun _ => rfl, hreach, hreach⟩,
    fun entry => ⟨Archive.warm_sparse entry, Archive.warm_sparse entry⟩⟩

theorem Restoring.sound (h : Restoring cfg A info s) : s.Sound cfg A info := by
  induction h with
  | materialized => exact .inl (waiting_materialized hinfo)
  | next _ op hop ih => exact ih.next hinfo hop

end

/-- Restart safety: after a crash at any point of a history that keeps the stored chunks inside
their files, the bootstrap with the same page completes and calls nothing corrupt, every file
continues from the operations of its last `fdatasync`, and the volume is served as before. -/
theorem Restoring.restart (h : Restoring cfg A info s) (hinfo : FirstBoot cfg A info) (keep : Nat) :
    let s' := (s.crash keep).bootstrap cfg (.ok info)
    s'.initialized = true ∧ s'.health = .healthy ∧
      (∀ entry, s'.present entry = true ∧ s'.disk entry = s.stable entry ∧
        s'.content A entry = s.stableContent A entry) ∧
      ∀ ops : List Op, (∀ op ∈ ops, op.Serves) → (s'.run cfg A ops).Served cfg A := by
  have hwait := (h.sound hinfo).crash hinfo keep
  obtain ⟨m, hs, hinv, hwhole⟩ := hwait.bootstrap hinfo
  refine ⟨hinv.initialized, ?_, fun entry => ?_, fun ops hops => (hinv.run hops).served⟩
  · rw [hs]
    rfl
  · rw [hs]
    exact ⟨hwhole.present entry, rfl, rfl⟩

end Machine

/-- A file is emptied and the call returns without an error; or it is unlinked. After a crash the
bootstrap calls the volume corrupt. -/
theorem restart_corrupt_shortened :
    let served := (Machine.materialized twoChunks).bootstrap oneFile (.ok twoChunksInfo)
    let emptied := served.run oneFile twoChunks
      (.start 0 (.truncate 0 0) :: List.replicate 10 (.step 0 .ok))
    let unlinked := served.run oneFile twoChunks [.unlink 0]
    (served.initialized = true ∧
      (emptied.threads 0).map (fun th => (th.prog.length, th.error)) = some (0, none) ∧
      emptied.stable 0 = [] ∧ emptied.durableKeys = {⟨0, 0⟩, ⟨0, 1⟩}) ∧
      (let s := (emptied.crash 0).bootstrap oneFile (.ok twoChunksInfo)
      s.initialized = false ∧ s.health = .corrupt) ∧
      (let s := (unlinked.crash 0).bootstrap oneFile (.ok twoChunksInfo)
      s.initialized = false ∧ s.health = .corrupt) := by
  decide +kernel

/-- A crash in the middle of shortening the file within its last chunk. -/
theorem restart_cut :
    let s := (Machine.materialized twoChunks).run oneFile twoChunks
      [.bootstrap (.ok twoChunksInfo), .start 0 (.truncate 0 6), .step 0 .ok, .fsync 0]
    let s' := (s.crash 0).bootstrap oneFile (.ok twoChunksInfo)
    s'.initialized = true ∧ s'.disk 0 = s.stable 0 := by
  have hinfo : Machine.FirstBoot oneFile twoChunks twoChunksInfo :=
    ⟨rfl, rfl, by decide +kernel⟩
  have hstep : (Op.step 0 .ok).Keeps twoChunks twoChunksInfo
      ((Machine.materialized twoChunks).run oneFile twoChunks
        [.bootstrap (.ok twoChunksInfo), .start 0 (.truncate 0 6)]) := by
    refine ⟨rfl, ?_⟩
    rintro entry op ⟨th, rest, hth, hprog, -⟩
    cases hth
    cases hprog
  have hrun : Machine.Restoring oneFile twoChunks twoChunksInfo
      ((Machine.materialized twoChunks).run oneFile twoChunks
        [.bootstrap (.ok twoChunksInfo), .start 0 (.truncate 0 6), .step 0 .ok, .fsync 0]) := by
    refine .next (.next (.next (.next .materialized (.bootstrap (.ok twoChunksInfo)) rfl)
      (.start 0 (.truncate 0 6)) ?_) (.step 0 .ok) hstep) (.fsync 0) trivial
    change Machine.initialized _ = true
    decide +kernel
  obtain ⟨hinit, -, hfiles, -⟩ := hrun.restart hinfo 0
  exact ⟨hinit, (hfiles 0).2.1⟩

end PortableFS.Restore
