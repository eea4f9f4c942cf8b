import Mario.Fs.Fat.FileChains

/-!
# Lookups and chains of a FAT in a run

Every step keeps the chains of the live inodes and what they remember, and when every change of a
first cluster reaches the disk the chains are those of the entries.
-/

namespace Mario.Fs.Fat.Clusters

open Mario.Lib Function

variable {s s' : State} {a : Answers} {id : ℕ} {nd : Node}

/-! ## Steps -/

theorem Inv.setDead (h : Inv s) (hnode : s.node id = some nd) (hdead : nd.live = false) {nd' : Node}
    (hdead' : nd'.live = false) : Inv (s.setNode id nd') := by
  obtain ⟨chain, hlayout, hcache⟩ := h.chains
  have hhead : (s.setNode id nd').head = s.head := by
    have hzero : s.head (some id) = 0 := by
      simp [State.head, hnode, hdead]
    refine (head_setNode s s.table id nd').trans ?_
    rw [hdead', if_neg Bool.false_ne_true, ← hzero, update_eq_self]
  have hlive : ∀ j nj, (s.setNode id nd').node j = some nj → nj.live = true → s.node j = some nj := by
    intro j nj hj hl
    by_cases hji : j = id
    · subst hji
      simp only [State.setNode, update_self, Option.some.injEq] at hj
      rw [← hj, hdead'] at hl
      cases hl
    · simpa only [State.setNode, update_of_ne hji] using hj
  refine ⟨h.clusterSize, fun j nj hj hl => h.dir j nj (hlive j nj hj hl) hl, chain, ?_,
    fun j nj hj hl => hcache j nj (hlive j nj hj hl) hl⟩
  rw [hhead]
  exact hlayout

theorem Inv.read {index : ℕ} (h : Inv s) (hstep : exec s (.read id index) = some s') : Inv s' := by
  rw [exec] at hstep
  split at hstep
  · rename_i nd hnode
    cases hstep
    by_cases hlive : nd.live = true
    swap
    · exact h.setDead hnode (by simpa using hlive) (by simpa using hlive)
    · refine h.of_holds (u := s.table) hnode hlive (fun chain hholds => ?_) ⟨rfl, rfl⟩ fun _ => rfl
      obtain ⟨hnone, l, hlayout, hcache⟩ := hholds
      have hchain := hlayout.isChain (some id)
      simp only [update_self] at hchain
      exact ⟨hnone, l, hlayout, (hcache.clusterAt hchain hlayout.small index).2⟩
  · cases hstep

theorem Inv.truncate {size : ℕ} {inode : Bool} (h : Inv s) (hgood : Careful s (.truncate id size a inode))
    (hstep : exec s (.truncate id size a inode) = some s') : Inv s' := by
  rw [exec] at hstep
  split at hstep
  · rename_i nd hnode
    split_ifs at hstep with hdir
    cases hstep
    obtain ⟨hclean, hrest⟩ := hgood
    obtain ⟨-, hlive, hfirst, hcut⟩ := hrest nd hnode
    refine h.of_holds hnode hlive (fun chain hholds => ?_) (truncate_sameKind ..) fun hd => absurd hd hdir
    exact hholds.truncate hclean h.clusterSize hfirst hcut
  · cases hstep

theorem Inv.write {pos count : ℕ} {inode : Bool} (h : Inv s) (hgood : Careful s (.write id pos count a inode))
    (hstep : exec s (.write id pos count a inode) = some s') : Inv s' := by
  rw [exec] at hstep
  split at hstep
  · rename_i nd hnode
    split_ifs at hstep with hdir
    cases hstep
    obtain ⟨hclean, hrest⟩ := hgood
    obtain ⟨-, hlive, hfirst⟩ := hrest nd hnode
    refine h.of_holds hnode hlive (fun chain hholds => ?_) (write_sameKind ..) fun hd => absurd hd hdir
    exact hholds.write hclean hfirst
  · cases hstep

theorem Inv.setEmpty (h : Inv s) (hnode : s.node id = none) (hlive : nd.live = true)
    (hplain : nd.cache.Plain) (hstart : nd.start = 0) (hdir : nd.dir = false) : Inv (s.setNode id nd) := by
  refine h.setNew (u := s.table) hnode hlive hplain ?_ (fun hd => by rw [hdir] at hd; cases hd)
    fun chain hlayout => ⟨chain (some id), ?_⟩
  · intro _ heq
    rw [hstart] at heq
    exact hplain.2 heq
  · rwa [hstart, ← head_none hnode, update_eq_self, update_eq_self]

theorem Inv.create {dir need : ℕ} {cache : Cache} {added : Added} (h : Inv s)
    (hgood : Careful s (.create dir id cache a need added))
    (hstep : exec s (.create dir id cache a need added) = some s') : Inv s' := by
  obtain ⟨hclean, hzero, hlate⟩ := hgood
  rw [exec] at hstep
  split at hstep
  · rename_i dirNode hdir hnode
    split_ifs at hstep with hplain
    obtain ⟨hinv, hadded⟩ := h.addEntry (w := need) (z := added) hclean hdir hzero
    rcases hadd : Clusters.addEntry a s.table dirNode need added with ⟨r, t⟩
    rw [hadd] at hstep hinv hadded
    dsimp only at hinv hadded
    cases r with
    | failed =>
      cases hstep
      exact hinv
    | ok =>
      cases hstep
      exact hinv.setEmpty hnode rfl hplain rfl rfl
    | late =>
      rcases hadded with heq | heq
      · exact absurd heq.symm hlate
      · cases heq
  · cases hstep

theorem Inv.mkdir {dir need : ℕ} {cache : Cache} {added : Added} (h : Inv s)
    (hgood : Careful s (.mkdir dir id cache a need added))
    (hstep : exec s (.mkdir dir id cache a need added) = some s') : Inv s' := by
  obtain ⟨hclean, hzero, hlate, hfits⟩ := hgood
  rw [exec] at hstep
  split at hstep
  · rename_i dirNode hdir hnode
    split_ifs at hstep with hplain
    rcases alloc_cases (s := s.table) (w := 0) hclean.mark hclean.link with hnone | ⟨c, hscan, hsome⟩
    · rw [hnone] at hstep
      cases hstep
      exact h
    · rw [hsome] at hstep
      dsimp only at hstep
      obtain ⟨hvalid, hc⟩ := scan_some hscan
      generalize hmade : newDirectory c cache = made at hstep
      have hlive : made.live = true := by rw [← hmade]; rfl
      have hstart : made.start = c := by rw [← hmade]; rfl
      have hne : dir ≠ id := by
        rintro rfl
        rw [(dir_some hdir).1] at hnode
        cases hnode
      have hnew : Inv ((s.setTable (s.table.taken 0 c)).setNode id made) := by
        refine h.setNew hnode hlive (by rw [← hmade]; exact hplain)
          (by rw [← hmade]; exact hfits c hscan) (fun _ => by rw [hstart]; exact hvalid.pos)
          fun chain hlayout => ?_
        have hnil := hlayout.chain_eq_nil (head_none hnode)
        have htaken := hlayout.taken hvalid hc (some id) (by rw [hnil, List.getLastD_nil])
        rw [if_pos (head_none hnode)] at htaken
        rw [hstart]
        exact ⟨_, htaken⟩
      have hdir' : ((s.setTable (s.table.taken 0 c)).setNode id made).dir dir = some dirNode := by
        rw [State.dir, State.setNode]
        dsimp only
        rw [update_of_ne hne]
        exact hdir
      have hunmade : ∀ t, Inv ((s.setTable t).setNode id made) → Inv (s.setTable (t.freeChain a c).2) := by
        intro t hinv
        obtain ⟨t', hfree, hrest⟩ := hinv.free hclean (k := id) (y := made)
          (by simp [State.setNode]) hlive
        rw [hstart] at hfree
        change t.freeChain a c = (true, t') at hfree
        rw [hfree]
        refine hrest _ rfl rfl (fun j hj => ?_) fun nd' hnd' => ?_
        · simp [State.setNode, State.setTable, hj]
        · change s.node id = some nd' at hnd'
          rw [hnode] at hnd'
          cases hnd'
      by_cases hwrite : a.zero c = true
      · rw [if_pos hwrite] at hstep
        obtain ⟨hinv, hadded⟩ := hnew.addEntry (w := need) (z := added) hclean hdir' hzero
        change Inv (State.setTable _ (Clusters.addEntry a (s.table.taken 0 c) dirNode need added).2) at hinv
        change (Clusters.addEntry a (s.table.taken 0 c) dirNode need added).1 = _ ∨
          (Clusters.addEntry a (s.table.taken 0 c) dirNode need added).1 = _ at hadded
        rcases hadd : Clusters.addEntry a (s.table.taken 0 c) dirNode need added with ⟨r, t⟩
        rw [hadd] at hstep hinv hadded
        dsimp only at hinv hadded
        cases r with
        | ok =>
          cases hstep
          exact hinv
        | failed =>
          cases hstep
          exact hunmade t hinv
        | late =>
          rcases hadded with heq | heq
          · exact absurd heq.symm hlate
          · cases heq
      · rw [if_neg hwrite] at hstep
        cases hstep
        exact hunmade _ hnew
  · cases hstep

theorem Inv.delete {again : Bool} (h : Inv s) (hgood : Careful s (.delete id a again))
    (hstep : exec s (.delete id a again) = some s') : Inv s' := by
  obtain ⟨hclean, hstart⟩ := hgood
  rw [exec] at hstep
  split at hstep
  · rename_i nd hentry
    obtain ⟨hnode, hlive⟩ := entry_some hentry
    obtain ⟨t', hfree, hrest⟩ := h.free hclean hnode hlive
    rw [hstart nd hnode, hfree] at hstep
    cases hstep
    refine hrest _ rfl ?_ (fun j hj => dropEntry_of_ne hj) fun nd' hnd' => dropEntry_self hnd'
    rw [State.dropEntry]
    split <;> rfl
  · cases hstep

/-- The state of a rename before the chain of the target is freed. -/
def renamed (s : State) (id new : ℕ) (table : Table) (nd : Node) : State :=
  ((s.dropEntry id).setTable table).setNode new nd

theorem dropEntry_clusterSize (s : State) (id : ℕ) : (s.dropEntry id).clusterSize = s.clusterSize := by
  rw [State.dropEntry]
  split <;> rfl

theorem dropEntry_setTable (s : State) (id : ℕ) : (s.dropEntry id).setTable s.table = s.dropEntry id := by
  rw [State.dropEntry]
  split <;> rfl

theorem Inv.renamed {new : ℕ} {table : Table} {nd' : Node} (h : Inv (s.setTable table))
    (hnode : s.node id = some nd) (hlive : nd.live = true) (hnew : s.node new = none)
    (hlive' : nd'.live = true) (hstart : nd'.start = nd.start) (hdir : nd'.dir = nd.dir)
    (hplain : nd'.cache.Plain) (hfits : nd'.cache.FitsStart nd.start) : Inv (renamed s id new table nd') := by
  have hne : id ≠ new := by
    rintro rfl
    rw [hnode] at hnew
    cases hnew
  refine h.move hnode hlive hnew rfl (dropEntry_clusterSize s id) (fun j hj hjn => ?_)
    (fun nj hj => ?_) (update_self ..) hlive' hstart hdir hplain hfits
  · rw [Clusters.renamed, State.setNode]
    dsimp only
    rw [update_of_ne hjn]
    exact dropEntry_of_ne hj
  · rw [Clusters.renamed, State.setNode] at hj
    dsimp only at hj
    rw [update_of_ne hne] at hj
    exact dropEntry_self hj

theorem Inv.relocate {new : ℕ} {cache : Cache} (h : Inv s) (hgood : Careful s (.relocate id new cache))
    (hstep : exec s (.relocate id new cache) = some s') : Inv s' := by
  rw [exec] at hstep
  split at hstep
  · rename_i nd hentry hnew
    split_ifs at hstep with hplain
    cases hstep
    obtain ⟨hnode, hlive⟩ := entry_some hentry
    obtain ⟨hstart, hfits⟩ := hgood nd hnode
    have hinv : Inv (s.setTable s.table) := h
    have hlive' : (nd.moved cache).live = true := hlive
    have hstart' : (nd.moved cache).start = nd.start := hstart
    rw [← dropEntry_setTable]
    exact hinv.renamed hnode hlive hnew hlive' hstart' rfl hplain hfits
  · cases hstep

theorem Inv.rename {new newDir need : ℕ} {target : Option ℕ} {cache : Cache} {added : Added}
    {again inode : Bool} (h : Inv s) (hgood : Careful s (.rename id new target newDir cache a need added again inode))
    (hstep : exec s (.rename id new target newDir cache a need added again inode) = some s') : Inv s' := by
  obtain ⟨hclean, hzero, hlate, hagain, hinode, hfits, htarget⟩ := hgood
  subst hagain hinode
  rw [exec.eq_def] at hstep
  dsimp only at hstep
  split at hstep
  · rename_i nd dirNode hentry hnew hdir
    obtain ⟨hnode, hlive⟩ := entry_some hentry
    by_cases hcond : cache.Plain ∧ target ≠ some id ∧ target ≠ some newDir ∧
        (target = none ∨ (target.bind s.entry).isSome)
    swap
    · rw [if_neg hcond] at hstep
      cases hstep
    rw [if_pos hcond] at hstep
    obtain ⟨hplain, hself, -, hpresent⟩ := hcond
    obtain ⟨hinv, hadded⟩ := h.addEntry (w := need) (z := added) hclean hdir hzero
    rcases hadd : Clusters.addEntry a s.table dirNode need added with ⟨r, t⟩
    rw [hadd] at hstep hinv hadded
    dsimp only at hinv hadded
    cases r with
    | failed =>
      simp only [if_true, Option.some.injEq] at hstep
      subst hstep
      exact hinv
    | late =>
      rcases hadded with heq | heq
      · exact absurd heq.symm hlate
      · cases heq
    | ok =>
      simp only [if_true] at hstep
      generalize hmade : (nd.written true).moved cache = made at hstep
      have hmoved : Inv (Clusters.renamed s id new t made) := by
        rw [← hmade]
        exact hinv.renamed hnode hlive hnew hlive rfl rfl hplain (hfits nd hnode)
      cases target with
      | none =>
        simp only [Option.bind_none, Option.some.injEq] at hstep
        subst hstep
        exact hmoved
      | some u =>
        have hsome : (s.entry u).isSome = true := by simpa using hpresent
        obtain ⟨ud, hud⟩ := Option.isSome_iff_exists.mp hsome
        obtain ⟨hunode, hulive⟩ := entry_some hud
        have hui : u ≠ id := fun heq => hself (by rw [heq])
        have hun : u ≠ new := by
          rintro rfl
          rw [hnew] at hunode
          cases hunode
        have hufree : (Clusters.renamed s id new t made).node u = some ud := by
          rw [Clusters.renamed, State.setNode]
          dsimp only
          rw [update_of_ne hun]
          exact (dropEntry_of_ne hui).trans hunode
        obtain ⟨t', hfree, hrest⟩ := hmoved.free hclean hufree hulive
        change t.freeChain a ud.start = (true, t') at hfree
        simp only [Option.bind_some, hud] at hstep
        rw [htarget u ud rfl hunode, hfree] at hstep
        cases hstep
        refine hrest _ rfl ?_ (fun j hj => ?_) fun nd' hnd' => ?_
        · exact (dropEntry_clusterSize _ id).trans ((dropEntry_clusterSize s u).trans (dropEntry_clusterSize s id).symm)
        · simp only [Clusters.renamed, State.setNode, State.setTable]
          by_cases hjn : j = new
          · subst hjn
            simp only [update_self]
          · simp only [update_of_ne hjn]
            by_cases hji : j = id
            · subst hji
              rw [dropEntry_node, update_self, dropEntry_of_ne hj, dropEntry_node, update_self]
            · rw [dropEntry_of_ne hji, dropEntry_of_ne hji, dropEntry_of_ne hj]
        · simp only [State.setNode, State.setTable, update_of_ne hun] at hnd'
          rw [dropEntry_of_ne hui] at hnd'
          exact dropEntry_self hnd'
  · cases hstep

theorem Inv.deleteFails {gone : Bool} {twin : Option (ℕ × Cache)} (h : Inv s)
    (hgood : Careful s (.deleteFails id gone twin)) (hstep : exec s (.deleteFails id gone twin) = some s') : Inv s' := by
  obtain ⟨rfl, rfl⟩ := hgood
  rw [exec] at hstep
  split at hstep
  · cases hstep
    exact h
  · cases hstep

theorem written_moved_start {inode : Bool} (h : inode = true ∨ nd.entryStart = nd.start) (cache : Cache) :
    ((nd.written inode).moved cache).start = nd.start := by
  cases inode with
  | true => rfl
  | false => exact h.resolve_left (by decide)

theorem written_moved_sameKind (nd : Node) (inode : Bool) (cache : Cache) :
    SameKind nd ((nd.written inode).moved cache) := by
  cases inode <;> exact ⟨rfl, rfl⟩

/-- An inode that has reached its entry is read again as it was, and remembers nothing. -/
theorem Inv.evict {inode : Bool} (h : Inv s) (hgood : Careful s (.evict id inode))
    (hstep : exec s (.evict id inode) = some s') : Inv s' := by
  obtain ⟨nd, hentry, rfl⟩ := Option.map_eq_some_iff.mp hstep
  obtain ⟨hnode, hlive⟩ := entry_some hentry
  have hstart := written_moved_start (hgood nd hnode) forgotten
  refine h.of_holds (u := s.table) hnode hlive (fun chain hholds => ?_) (written_moved_sameKind nd inode forgotten)
    fun _ => hstart
  obtain ⟨hnone, l, hlayout, -⟩ := hholds
  refine ⟨hnone, l, ?_, Cache.ok_of_invalid rfl⟩
  rwa [hstart]

theorem Inv.step {l : Label} (h : Inv s) (hstep : Guarded Good Step s l s') : Inv s' := by
  obtain ⟨⟨-, hgood⟩, hexec⟩ := hstep
  cases l with
  | read id index => exact h.read hexec
  | truncate id size a inode => exact h.truncate hgood hexec
  | write id pos count a inode => exact h.write hgood hexec
  | create dir id cache a need added => exact h.create hgood hexec
  | mkdir dir id cache a need added => exact h.mkdir hgood hexec
  | delete id a again => exact h.delete hgood hexec
  | rename id new target newDir cache a need added again inode => exact h.rename hgood hexec
  | relocate id new cache => exact h.relocate hgood hexec
  | deleteFails id gone twin => exact h.deleteFails hgood hexec
  | evict id inode => exact h.evict hgood hexec

theorem Initial.inv (h : Initial s) : Inv s := by
  obtain ⟨chain, hlayout⟩ := h.chains
  exact ⟨h.clusterSize, h.dir, chain, hlayout, fun id nd hnode _ => Cache.ok_of_invalid (h.cache id nd hnode)⟩

/-- A volume of eight clusters with an empty root directory. -/
def smallVolume : State where
  table := { total := 8, entry := fun c => if c = 2 then fatEocMax else 0, nextFree := 3, freeClusters := 7 }
  clusterSize := 512
  node id := if id = root then
      some { newDirectory 2 { valid := false, start := 0, index := 0, cluster := 0 } with live := true }
    else none

/-- The disk does everything. -/
def done : Answers where
  fat _ _ := .ok
  zero _ := true
  data _ := true

theorem done_clean : done.Clean :=
  ⟨fun _ => Answer.noConfusion, fun _ => rfl, fun _ => Answer.noConfusion, fun _ => rfl⟩

def after (labels : List Label) : State :=
  labels.foldl (fun s l => (exec s l).getD s) smallVolume

end Mario.Fs.Fat.Clusters
