/-
What every run of spawn, sync and abort keeps: the set of descriptors is the set of the
sockets of the children in the list.
-/
import NewLispNeo.SpawnList

namespace NewLispNeo

namespace Spawn

/-- The descriptors of the children that have a socket. -/
def sockets (children : List SpawnEntry) : Finset ℕ :=
  ((children.map SpawnEntry.socket).filter (· ≠ 0)).toFinset

/-- The set and the list agree, and so do they with what the system keeps. -/
structure Process.Booked (s : Process) : Prop where
  fdSet : s.myFdSet = sockets s.mySpawnList
  pids : (s.mySpawnList.map SpawnEntry.pid).Nodup
  distinct : ∀ c ∈ s.mySpawnList, ∀ d ∈ s.mySpawnList,
    c.socket ≠ 0 → c.socket = d.socket → c = d
  isOpen : sockets s.mySpawnList ⊆ s.descriptors
  waited : ∀ c ∈ s.mySpawnList, c.pid ∈ s.children
  sigchld : s.mySpawnList ≠ [] → s.sigchld = .default

/-- A step that keeps the books: no child that has a socket is collected by `sync`, no
`fork` fails for one, its descriptor is not 0 and has room in the set, and no child begins
with descriptors in the set. -/
def Event.Clean (isProtected : Symbol → Bool) (s : Process) : Event → Prop
  | .spawn symPtr flag sys =>
      sys.mmap ≠ none → isProtected symPtr = false →
        if flag then
          ∀ fds, sys.socketpair = some fds →
            0 < fds.1 ∧ fds.1 < FD_SETSIZE ∧ ∃ pid, sys.fork = .parent pid
        else sys.fork = .child → s.myFdSet = ∅
  | .syncPass (.collected pid _) =>
      ∀ c ∈ s.mySpawnList, c.pid = pid → c.socket = 0
  | _ => True

section Lists

variable {children : List SpawnEntry} {c d : SpawnEntry} {pid : ℤ} {fd : ℕ}

theorem mem_sockets : fd ∈ sockets children ↔ fd ≠ 0 ∧ ∃ c ∈ children, c.socket = fd := by
  simp [sockets, and_comm]

theorem eq_of_pid (h : (children.map SpawnEntry.pid).Nodup) (hc : c ∈ children)
    (hd : d ∈ children) (hpid : c.pid = d.pid) : c = d :=
  List.inj_on_of_nodup_map h hc hd hpid

/-- Where no pid occurs twice, the first entry with a pid is the only one. -/
theorem eraseP_eq_filter (h : (children.map SpawnEntry.pid).Nodup) :
    children.eraseP (·.pid = pid) = children.filter (·.pid ≠ pid) := by
  induction children with
  | nil => rfl
  | cons c children ih =>
      rw [List.map_cons, List.nodup_cons] at h
      by_cases hpid : c.pid = pid
      · have hrest : children.filter (·.pid ≠ pid) = children := by
          rw [List.filter_eq_self]
          intro d hd
          have hne : d.pid ≠ pid := by
            rintro rfl
            exact h.1 (hpid ▸ List.mem_map_of_mem hd)
          simpa using hne
        rw [List.eraseP_cons_of_pos (by simpa using hpid),
          List.filter_cons_of_neg (by simpa using hpid), hrest]
      · rw [List.eraseP_cons_of_neg (by simpa using hpid),
          List.filter_cons_of_pos (by simpa using hpid), ih h.2]

end Lists

section Processes

variable {s s' : Process} {c : SpawnEntry} {pid : ℤ} {mode : SpawnMode}

theorem getSpawnedChild_some (h : getSpawnedChild pid s = some c) :
    c ∈ s.mySpawnList ∧ c.pid = pid :=
  ⟨List.mem_of_find?_eq_some h, by simpa using List.find?_some h⟩

theorem processSpawnList_none (h : getSpawnedChild pid s = none) :
    processSpawnList pid mode s = s := by
  rw [processSpawnList, h]

@[simp] theorem closeSocket_mySpawnList (fd : ℕ) :
    (closeSocket fd s).mySpawnList = s.mySpawnList := by
  unfold closeSocket
  split <;> rfl

@[simp] theorem closeSocket_myFdSet (fd : ℕ) : (closeSocket fd s).myFdSet = s.myFdSet := by
  unfold closeSocket
  split <;> rfl

@[simp] theorem closeSocket_children (fd : ℕ) :
    (closeSocket fd s).children = s.children := by
  unfold closeSocket
  split <;> rfl

@[simp] theorem closeSocket_sigchld (fd : ℕ) : (closeSocket fd s).sigchld = s.sigchld := by
  unfold closeSocket
  split <;> rfl

theorem mem_closeSocket {fd fd' : ℕ} :
    fd' ∈ (closeSocket fd s).descriptors ↔ fd' ∈ s.descriptors ∧ (fd = 0 ∨ fd' ≠ fd) := by
  unfold closeSocket close
  split_ifs with h
  · simp [h]
  · simp [h, and_comm]

/-- What becomes of the books when a child is taken out of the list. -/
structure Removed (s s' : Process) (c : SpawnEntry) : Prop where
  mySpawnList : s'.mySpawnList = s.mySpawnList.eraseP (·.pid = c.pid)
  descriptors : ∀ fd, fd ∈ s'.descriptors ↔ fd ∈ s.descriptors ∧ (c.socket = 0 ∨ fd ≠ c.socket)
  sigchld : s'.sigchld = s.sigchld

theorem processSpawnList_removed (mode : SpawnMode) (h : getSpawnedChild pid s = some c) :
    Removed s (processSpawnList pid mode s) c := by
  have hpid := (getSpawnedChild_some h).2
  rw [processSpawnList, h]
  constructor
  · cases mode <;> simp [reap, hpid]
  · intro fd
    rw [mem_closeSocket]
    cases mode <;> rfl
  · cases mode <;> simp [reap]

theorem processSpawnList_abort (h : getSpawnedChild pid s = some c) :
    (processSpawnList pid .abort s).myFdSet = s.myFdSet.erase c.socket ∧
      (processSpawnList pid .abort s).children = s.children.erase c.pid := by
  have hpid := (getSpawnedChild_some h).2
  rw [processSpawnList, h]
  simp [reap, hpid]

theorem processSpawnList_wait (h : getSpawnedChild pid s = some c) (hmode : mode ≠ .abort) :
    (processSpawnList pid mode s).myFdSet = s.myFdSet ∧
      (processSpawnList pid mode s).children = s.children := by
  rw [processSpawnList, h]
  cases mode with
  | abort => exact absurd rfl hmode
  | _ => simp

end Processes

namespace Process.Booked

variable {s s' : Process} {c : SpawnEntry} {pid : ℤ}

/-- Taking a child out of the list together with its descriptor keeps the books. -/
theorem remove (h : s.Booked) (hc : c ∈ s.mySpawnList) (hremoved : Removed s s' c)
    (hset : s'.myFdSet = s.myFdSet.erase c.socket)
    (hchildren : s'.children = s.children.erase c.pid) : s'.Booked := by
  have hlist : s'.mySpawnList = s.mySpawnList.filter (·.pid ≠ c.pid) :=
    hremoved.mySpawnList.trans (eraseP_eq_filter h.pids)
  have hmem : ∀ d, d ∈ s'.mySpawnList ↔ d ∈ s.mySpawnList ∧ d.pid ≠ c.pid := by
    intro d
    rw [hlist, List.mem_filter]
    simp
  have hsub : ∀ d ∈ s'.mySpawnList, d.socket ≠ 0 → d.socket ≠ c.socket := by
    intro d hd hne heq
    obtain ⟨hd, hpid⟩ := (hmem d).mp hd
    exact hpid (congrArg SpawnEntry.pid (h.distinct d hd c hc hne heq))
  constructor
  · ext fd
    rw [hset, Finset.mem_erase, h.fdSet, mem_sockets, mem_sockets]
    constructor
    · rintro ⟨hfd, hne, d, hd, rfl⟩
      refine ⟨hne, d, (hmem d).mpr ⟨hd, ?_⟩, rfl⟩
      intro hpid
      exact hfd (congrArg SpawnEntry.socket (eq_of_pid h.pids hd hc hpid))
    · rintro ⟨hne, d, hd, rfl⟩
      exact ⟨hsub d hd hne, hne, d, ((hmem d).mp hd).1, rfl⟩
  · rw [hlist]
    exact h.pids.sublist (List.filter_sublist.map _)
  · intro d hd e he
    exact h.distinct d ((hmem d).mp hd).1 e ((hmem e).mp he).1
  · intro fd hfd
    obtain ⟨hne, d, hd, rfl⟩ := mem_sockets.mp hfd
    rw [hremoved.descriptors]
    exact ⟨h.isOpen (mem_sockets.mpr ⟨hne, d, ((hmem d).mp hd).1, rfl⟩), .inr (hsub d hd hne)⟩
  · intro d hd
    obtain ⟨hd, hpid⟩ := (hmem d).mp hd
    rw [hchildren, Finset.mem_erase]
    exact ⟨hpid, h.waited d hd⟩
  · intro hne
    rw [hremoved.sigchld]
    apply h.sigchld
    rintro hnil
    exact hne (by rw [hlist, hnil]; rfl)

theorem abort (h : s.Booked) : (processSpawnList pid .abort s).Booked := by
  cases hchild : getSpawnedChild pid s with
  | none => rwa [processSpawnList_none hchild]
  | some c =>
      obtain ⟨hset, hchildren⟩ := processSpawnList_abort hchild
      exact h.remove (getSpawnedChild_some hchild).1 (processSpawnList_removed .abort hchild) hset
        hchildren

theorem abortAll (h : s.Booked) (passes : ℕ) : (Spawn.abortAll passes s).Booked := by
  induction passes generalizing s with
  | zero => exact h
  | succ passes ih =>
      rw [Spawn.abortAll]
      split
      · exact h
      · exact ih h.abort

theorem handler (h : s.Booked) (hnil : s.mySpawnList = []) : (restoreHandler s).Booked where
  fdSet := h.fdSet
  pids := h.pids
  distinct := h.distinct
  isOpen := h.isOpen
  waited := h.waited
  sigchld := fun hne => absurd hnil hne

/-- A collected child that has no socket leaves the set as it is. -/
theorem collect (h : s.Booked) {mode : SpawnMode} (hmode : mode ≠ .abort)
    (hsocket : ∀ c ∈ s.mySpawnList, c.pid = pid → c.socket = 0) :
    (processSpawnList pid mode (reap pid s)).Booked := by
  cases hchild : getSpawnedChild pid s with
  | none =>
      have hnone : getSpawnedChild pid (reap pid s) = none := hchild
      rw [processSpawnList_none hnone]
      refine { h with waited := fun d hd => Finset.mem_erase.mpr ⟨?_, h.waited d hd⟩ }
      intro hpid
      simpa [hpid] using List.find?_eq_none.mp hchild d hd
  | some c =>
      have hsome : getSpawnedChild pid (reap pid s) = some c := hchild
      obtain ⟨hc, hpid⟩ := getSpawnedChild_some hchild
      obtain ⟨hset, hchildren⟩ := processSpawnList_wait hsome hmode
      have hremoved := processSpawnList_removed mode hsome
      apply h.remove hc ⟨hremoved.mySpawnList, hremoved.descriptors, hremoved.sigchld⟩
      · rw [hset, hsocket c hc hpid, Finset.erase_eq_of_notMem]
        · rfl
        · rw [h.fdSet, mem_sockets]
          exact fun h0 => h0.1 rfl
      · rw [hchildren, hpid]
        rfl

end Process.Booked

section Abort

variable {s : Process} {c : SpawnEntry} {rest : List SpawnEntry} {mode : SpawnMode}

theorem processSpawnList_head (h : s.mySpawnList = c :: rest) :
    (processSpawnList c.pid mode s).mySpawnList = rest := by
  have hchild : getSpawnedChild c.pid s = some c := by
    rw [getSpawnedChild, h]
    simp
  rw [(processSpawnList_removed mode hchild).mySpawnList, h]
  simp

theorem abortAll_mySpawnList (passes : ℕ) (h : s.mySpawnList.length ≤ passes) :
    (abortAll passes s).mySpawnList = [] := by
  induction passes generalizing s with
  | zero => exact List.eq_nil_of_length_eq_zero (Nat.le_zero.mp h)
  | succ passes ih =>
      rw [abortAll]
      split
      · assumption
      · rename_i c rest hlist
        apply ih
        rw [processSpawnList_head hlist]
        rw [hlist] at h
        exact Nat.le_of_succ_le_succ h

end Abort

section Spawning

variable {s s' : Process} {isProtected : Symbol → Bool} {symPtr : Symbol} {flag : Bool}
  {sys : SpawnAnswers} {reply : Reply}

/-- The books of two processes are the same. -/
structure SameBooks (s s' : Process) : Prop where
  mySpawnList : s'.mySpawnList = s.mySpawnList
  myFdSet : s'.myFdSet = s.myFdSet
  descriptors : s'.descriptors = s.descriptors
  children : s'.children = s.children
  sigchld : s'.sigchld = s.sigchld

theorem Process.Booked.congr (h : s.Booked) (hsame : SameBooks s s') : s'.Booked := by
  obtain ⟨hlist, hset, hdescriptors, hchildren, hsigchld⟩ := hsame
  constructor
  · rw [hset, hlist, h.fdSet]
  · rw [hlist]
    exact h.pids
  · rw [hlist]
    exact h.distinct
  · rw [hlist, hdescriptors]
    exact h.isOpen
  · rw [hlist, hchildren]
    exact h.waited
  · rw [hlist, hsigchld]
    exact h.sigchld

/-- `p_spawn` comes to `fork` with the descriptors of a socket pair in the set, or without
any, or returns before it has touched the books. -/
theorem p_spawn_cases (h : p_spawn isProtected symPtr flag sys s = some (s', reply)) :
    SameBooks s s' ∨
    (∃ address s₁, sys.mmap = some address ∧ isProtected symPtr = false ∧ flag = false ∧
      SameBooks s s₁ ∧ s' = (forkChild address symPtr (0, 0) sys s₁).1) ∨
    ∃ address fds s₁, sys.mmap = some address ∧ isProtected symPtr = false ∧ flag = true ∧
      sys.socketpair = some fds ∧ fds.1 < FD_SETSIZE ∧
      s₁.mySpawnList = s.mySpawnList ∧
      s₁.myFdSet = insert fds.1 (if s.mySpawnList = [] then ∅ else s.myFdSet) ∧
      s₁.descriptors = insert fds.1 (insert fds.2 s.descriptors) ∧
      s₁.children = s.children ∧
      s' = (forkChild address symPtr fds sys s₁).1 := by
  unfold p_spawn at h
  cases hmmap : sys.mmap with
  | none =>
      simp only [hmmap, Option.some.injEq, Prod.mk.injEq] at h
      obtain ⟨rfl, -⟩ := h
      exact .inl ⟨rfl, rfl, rfl, rfl, rfl⟩
  | some address =>
      simp only [hmmap] at h
      cases hprotected : isProtected symPtr with
      | true =>
          simp only [hprotected, reduceIte, Option.some.injEq, Prod.mk.injEq] at h
          obtain ⟨rfl, -⟩ := h
          exact .inl ⟨rfl, rfl, rfl, rfl, rfl⟩
      | false =>
          simp only [hprotected, Bool.false_eq_true, reduceIte] at h
          cases flag with
          | false =>
              simp only [Bool.false_eq_true, reduceIte, Option.some.injEq, Prod.ext_iff] at h
              exact .inr (.inl ⟨address,
                { s with contents := Function.update s.contents symPtr .nil }, rfl, rfl, rfl,
                ⟨rfl, rfl, rfl, rfl, rfl⟩, h.1.symm⟩)
          | true =>
              simp only [reduceIte] at h
              cases hpair : sys.socketpair with
              | none =>
                  simp only [hpair, Option.some.injEq, Prod.mk.injEq] at h
                  obtain ⟨rfl, -⟩ := h
                  exact .inl ⟨rfl, rfl, rfl, rfl, rfl⟩
              | some fds =>
                  simp only [hpair] at h
                  by_cases hsize : fds.1 < FD_SETSIZE
                  · simp only [hsize, reduceIte, Option.some.injEq, Prod.ext_iff] at h
                    refine .inr (.inr ⟨address, fds, _, rfl, rfl, rfl, rfl, hsize, ?_, ?_, ?_, ?_,
                      h.1.symm⟩)
                    all_goals
                      by_cases hnil : s.mySpawnList = []
                      · simp [hnil]
                      · simp [hnil]
                  · simp [hsize] at h

/-- `FD_SET` writes behind the set for a descriptor that has no room in it. -/
theorem p_spawn_none (h : p_spawn isProtected symPtr flag sys s = none) :
    sys.mmap ≠ none ∧ isProtected symPtr = false ∧ flag = true ∧
      ∃ fds, sys.socketpair = some fds ∧ ¬ fds.1 < FD_SETSIZE := by
  unfold p_spawn at h
  cases hmmap : sys.mmap with
  | none => simp [hmmap] at h
  | some address =>
      cases hprotected : isProtected symPtr with
      | true => simp [hmmap, hprotected] at h
      | false =>
          cases flag with
          | false => simp [hmmap, hprotected] at h
          | true =>
              cases hpair : sys.socketpair with
              | none => simp [hmmap, hprotected, hpair] at h
              | some fds =>
                  refine ⟨by simp, rfl, rfl, fds, rfl, ?_⟩
                  intro hsize
                  simp [hmmap, hprotected, hpair, hsize] at h

/-- In the parent the children in the list stay there. -/
theorem forkChild_keeps {address : ℕ} {fds : ℕ × ℕ} {c : SpawnEntry}
    (hfork : sys.fork ≠ .child) (hc : c ∈ s.mySpawnList) :
    c ∈ (forkChild address symPtr fds sys s).1.mySpawnList := by
  unfold forkChild
  cases hanswer : sys.fork with
  | failed => simpa using hc
  | child => exact absurd hanswer hfork
  | parent pid => simp [addSpawnedChild, hc]

/-- A new child with a free descriptor, or without one, keeps the books. -/
theorem Process.Booked.add (h : s.Booked) {c : SpawnEntry} (hpid : c.pid ∉ s.children)
    (hfree : c.socket ∉ s.descriptors ∨ c.socket = 0)
    (hlist : s'.mySpawnList = c :: s.mySpawnList)
    (hset : s'.myFdSet = if c.socket = 0 then s.myFdSet else insert c.socket s.myFdSet)
    (hopen : ∀ fd, fd ∈ s.descriptors ∨ (fd = c.socket ∧ c.socket ≠ 0) → fd ∈ s'.descriptors)
    (hchildren : s'.children = insert c.pid s.children) (hsigchld : s'.sigchld = .default) :
    s'.Booked := by
  have hother : ∀ d ∈ s.mySpawnList, d.socket ≠ 0 → d.socket ≠ c.socket := by
    intro d hd hne heq
    have hmem := h.isOpen (mem_sockets.mpr ⟨hne, d, hd, rfl⟩)
    rcases hfree with hfree | hfree
    · exact hfree (heq ▸ hmem)
    · exact hne (heq.trans hfree)
  constructor
  · ext fd
    rw [hset, hlist, h.fdSet, mem_sockets]
    split_ifs with hzero
    · rw [mem_sockets]
      constructor
      · rintro ⟨hne, d, hd, rfl⟩
        exact ⟨hne, d, List.mem_cons_of_mem _ hd, rfl⟩
      · rintro ⟨hne, d, hd, rfl⟩
        rcases List.mem_cons.mp hd with rfl | hd
        · exact absurd hzero hne
        · exact ⟨hne, d, hd, rfl⟩
    · rw [Finset.mem_insert, mem_sockets]
      constructor
      · rintro (rfl | ⟨hne, d, hd, rfl⟩)
        · exact ⟨hzero, c, List.mem_cons_self, rfl⟩
        · exact ⟨hne, d, List.mem_cons_of_mem _ hd, rfl⟩
      · rintro ⟨hne, d, hd, rfl⟩
        rcases List.mem_cons.mp hd with rfl | hd
        · exact .inl rfl
        · exact .inr ⟨hne, d, hd, rfl⟩
  · rw [hlist, List.map_cons, List.nodup_cons]
    refine ⟨?_, h.pids⟩
    intro hmem
    obtain ⟨d, hd, heq⟩ := List.mem_map.mp hmem
    exact hpid (heq ▸ h.waited d hd)
  · rw [hlist]
    intro d hd e he hne heq
    rcases List.mem_cons.mp hd with hdc | hd' <;> rcases List.mem_cons.mp he with hec | he'
    · rw [hdc, hec]
    · rw [hdc] at heq
      exact absurd heq.symm (hother e he' (heq ▸ hdc ▸ hne))
    · rw [hec] at heq
      exact absurd heq (hother d hd' hne)
    · exact h.distinct d hd' e he' hne heq
  · rw [hlist]
    intro fd hfd
    obtain ⟨hne, d, hd, rfl⟩ := mem_sockets.mp hfd
    rcases List.mem_cons.mp hd with rfl | hd
    · exact hopen _ (.inr ⟨rfl, hne⟩)
    · exact hopen _ (.inl (h.isOpen (mem_sockets.mpr ⟨hne, d, hd, rfl⟩)))
  · rw [hlist, hchildren]
    intro d hd
    rcases List.mem_cons.mp hd with rfl | hd
    · exact Finset.mem_insert_self _ _
    · exact Finset.mem_insert_of_mem (h.waited d hd)
  · exact fun _ => hsigchld

theorem Process.Booked.of_nil (hlist : s.mySpawnList = []) (hset : s.myFdSet = ∅) :
    s.Booked := by
  constructor
  · rw [hlist, hset]
    rfl
  all_goals simp [hlist, sockets]

/-- A spawn without a socket. -/
theorem Process.Booked.fork_plain (h : s.Booked) {address : ℕ}
    (hpid : ∀ pid, sys.fork = .parent pid → 0 < pid ∧ pid ∉ s.children)
    (hchild : sys.fork = .child → s.myFdSet = ∅) :
    (forkChild address symPtr (0, 0) sys s).1.Booked := by
  unfold forkChild
  cases hfork : sys.fork with
  | failed => exact { h with sigchld := fun _ => rfl }
  | child => exact .of_nil rfl (hchild hfork)
  | parent pid =>
      exact h.add (c := ⟨address, symPtr, pid, 0⟩) (hpid pid hfork).2 (.inr rfl) rfl rfl
        (fun fd hfd => hfd.elim id fun h0 => absurd rfl h0.2) rfl rfl

/-- A spawn with a socket: the set is emptied before when the list is empty. -/
theorem Process.Booked.fork_socket (h : s.Booked) {address : ℕ} {fds : ℕ × ℕ} {pid : ℤ}
    {s₁ : Process} (hfork : sys.fork = .parent pid) (hpid : pid ∉ s.children)
    (hfree : fds.1 ∉ s.descriptors) (hsecond : fds.2 ∉ s.descriptors) (hne : fds.1 ≠ fds.2)
    (hzero : fds.1 ≠ 0) (hlist : s₁.mySpawnList = s.mySpawnList)
    (hset : s₁.myFdSet = insert fds.1 (if s.mySpawnList = [] then ∅ else s.myFdSet))
    (hdescriptors : s₁.descriptors = insert fds.1 (insert fds.2 s.descriptors))
    (hchildren : s₁.children = s.children) :
    (forkChild address symPtr fds sys s₁).1.Booked := by
  have hbefore : (if s.mySpawnList = [] then ∅ else s.myFdSet) = s.myFdSet := by
    split_ifs with hnil
    · rw [h.fdSet, hnil]
      rfl
    · rfl
  unfold forkChild
  simp only [hfork]
  refine h.add (c := ⟨address, symPtr, pid, fds.1⟩) hpid (.inl hfree) ?_ ?_ ?_ ?_ ?_
  · simp [addSpawnedChild, hlist]
  · simp [addSpawnedChild, hset, hbefore, hzero]
  · intro fd hfd
    have hmem : fd ∈ s₁.descriptors ∧ fd ≠ fds.2 := by
      rw [hdescriptors]
      rcases hfd with hfd | ⟨rfl, -⟩
      · refine ⟨by simp [hfd], ?_⟩
        rintro rfl
        exact hsecond hfd
      · exact ⟨by simp, hne⟩
    exact mem_closeSocket.mpr ⟨hmem.1, .inr hmem.2⟩
  · simp [addSpawnedChild, hchildren]
  · simp [addSpawnedChild]

end Spawning

section Runs

variable {s s' : Process} {isProtected : Symbol → Bool} {e : Event}
  {steps : List (Process × Event × Process)}

theorem Step.booked (hstep : Step isProtected s e s') (hclean : e.Clean isProtected s)
    (h : s.Booked) : s'.Booked := by
  cases hstep with
  | exits _ => exact { h with }
  | handled hpossible =>
      have hnil : s.mySpawnList = [] := by
        by_contra hne
        have hdefault := h.sigchld hne
        rw [hpossible.1] at hdefault
        cases hdefault
      refine { h with waited := fun d hd => ?_ }
      have hd : d ∈ s.mySpawnList := hd
      rw [hnil] at hd
      cases hd
  | spawn hpossible hspawn =>
      obtain ⟨hfds, hpid⟩ := hpossible
      rcases p_spawn_cases hspawn with hsame | ⟨address, s₁, hmmap, hprot, rfl, hsame, rfl⟩ |
        ⟨address, fds, s₁, hmmap, hprot, rfl, hpair, hsize, hlist, hset, hdescriptors,
          hchildren, rfl⟩
      · exact h.congr hsame
      · have hchild := hclean (by simp [hmmap]) hprot
        simp only [Bool.false_eq_true, reduceIte] at hchild
        apply (h.congr hsame).fork_plain
        · rwa [hsame.children]
        · rwa [hsame.myFdSet]
      · have hsocket := hclean (by simp [hmmap]) hprot
        simp only [reduceIte] at hsocket
        obtain ⟨hpos, -, pid, hfork⟩ := hsocket fds hpair
        obtain ⟨hfirst, hsecond, hne⟩ := hfds fds hpair
        exact h.fork_socket hfork (hpid pid hfork).2 hfirst hsecond hne hpos.ne' hlist hset
          hdescriptors hchildren
  | overrun _ hspawn =>
      obtain ⟨hmmap, hprot, rfl, fds, hpair, hsize⟩ := p_spawn_none hspawn
      have hsocket := hclean hmmap hprot
      simp only [reduceIte] at hsocket
      exact absurd (hsocket fds hpair).2.1 hsize
  | @syncBegin inlet =>
      rw [Spawn.syncBegin]
      split_ifs
      · exact h
      · exact { h with sigchld := fun _ => rfl }
  | @syncPass answer hpossible =>
      cases answer with
      | noneEnded => exact h
      | noChild =>
          -- the children in the list have not been waited for
          obtain ⟨c, hc⟩ := List.exists_mem_of_ne_nil _ hpossible.1
          have hempty : s.children = ∅ := hpossible.2
          simpa [hempty] using h.waited c hc
      | collected pid status =>
          cases status with
          | exited => exact h.collect (nofun : SpawnMode.result ≠ .abort) hclean
          | signalled result =>
              exact h.collect (nofun : SpawnMode.abnormalEnd result ≠ .abort) hclean
  | syncEnd hpossible => exact h.handler hpossible
  | @abort pid =>
      cases pid with
      | some pid => exact h.abort
      | none => exact (h.abortAll _).handler (abortAll_mySpawnList _ le_rfl)

/-- A child that leaves the list has its descriptor closed by then. -/
def Closes (s s' : Process) : Prop :=
  s'.descriptors ⊆ s.descriptors ∧
    ∀ c ∈ s.mySpawnList, c.socket ≠ 0 → c ∉ s'.mySpawnList → c.socket ∉ s'.descriptors

theorem Closes.refl (s : Process) : Closes s s :=
  ⟨Finset.Subset.refl _, fun _ hc _ hnot => absurd hc hnot⟩

theorem Closes.trans {s₁ s₂ s₃ : Process} (h : Closes s₁ s₂) (h' : Closes s₂ s₃) :
    Closes s₁ s₃ := by
  refine ⟨h'.1.trans h.1, ?_⟩
  intro c hc hne hnot
  by_cases hmem : c ∈ s₂.mySpawnList
  · exact h'.2 c hmem hne hnot
  · exact fun hopen => h.2 c hc hne hmem (h'.1 hopen)

theorem processSpawnList_closes (h : (s.mySpawnList.map SpawnEntry.pid).Nodup) (pid : ℤ)
    (mode : SpawnMode) : Closes s (processSpawnList pid mode s) := by
  cases hchild : getSpawnedChild pid s with
  | none =>
      rw [processSpawnList_none hchild]
      exact .refl s
  | some c =>
      obtain ⟨hlist, hdescriptors, -⟩ := processSpawnList_removed mode hchild
      refine ⟨fun fd hfd => ((hdescriptors fd).mp hfd).1, ?_⟩
      intro d hd hne hnot hopen
      rw [hlist, eraseP_eq_filter h, List.mem_filter] at hnot
      have hpid : d.pid = c.pid := by
        by_contra hpid
        exact hnot ⟨hd, by simpa using hpid⟩
      obtain rfl := eq_of_pid h hd (getSpawnedChild_some hchild).1 hpid
      exact ((hdescriptors _).mp hopen).2.elim hne fun h0 => h0 rfl

theorem Process.Booked.closes_all (h : s.Booked) (passes : ℕ) :
    Closes s (Spawn.abortAll passes s) := by
  induction passes generalizing s with
  | zero => exact .refl s
  | succ passes ih =>
      rw [Spawn.abortAll]
      split
      · exact .refl s
      · exact (processSpawnList_closes h.pids _ .abort).trans (ih h.abort)

theorem Step.closes (hstep : Step isProtected s e s') (hclean : e.Clean isProtected s)
    (h : s.Booked) :
    ∀ c ∈ s.mySpawnList, c.socket ≠ 0 → c ∉ s'.mySpawnList → c.socket ∉ s'.descriptors := by
  intro c hc hne hnot
  cases hstep with
  | exits _ => exact absurd hc hnot
  | handled _ => exact absurd hc hnot
  | spawn _ hspawn =>
      rcases p_spawn_cases hspawn with hsame | ⟨address, s₁, hmmap, hprot, rfl, hsame, rfl⟩ |
        ⟨address, fds, s₁, hmmap, hprot, rfl, hpair, hsize, hlist, -, -, -, rfl⟩
      · exact absurd (hsame.mySpawnList ▸ hc) hnot
      · have hchild := hclean (by simp [hmmap]) hprot
        simp only [Bool.false_eq_true, reduceIte] at hchild
        refine absurd (forkChild_keeps ?_ (hsame.mySpawnList ▸ hc)) hnot
        -- a child has inherited an empty set, so no child in the list has a socket
        intro hfork
        have hmem : c.socket ∈ s.myFdSet := h.fdSet ▸ mem_sockets.mpr ⟨hne, c, hc, rfl⟩
        simp [hchild hfork] at hmem
      · have hsocket := hclean (by simp [hmmap]) hprot
        simp only [reduceIte] at hsocket
        obtain ⟨-, -, pid, hfork⟩ := hsocket fds hpair
        exact absurd (forkChild_keeps (by simp [hfork]) (hlist ▸ hc)) hnot
  | overrun _ hspawn =>
      obtain ⟨hmmap, hprot, rfl, fds, hpair, hsize⟩ := p_spawn_none hspawn
      have hsocket := hclean hmmap hprot
      simp only [reduceIte] at hsocket
      exact absurd (hsocket fds hpair).2.1 hsize
  | @syncBegin inlet =>
      rw [Spawn.syncBegin] at hnot
      split_ifs at hnot <;> exact absurd hc hnot
  | @syncPass answer _ =>
      cases answer with
      | noneEnded => exact absurd hc hnot
      | noChild => exact (processSpawnList_closes h.pids _ _).2 c hc hne hnot
      | collected pid status =>
          have hpids : ((reap pid s).mySpawnList.map SpawnEntry.pid).Nodup := h.pids
          cases status with
          | exited => exact (processSpawnList_closes hpids _ _).2 c hc hne hnot
          | signalled _ => exact (processSpawnList_closes hpids _ _).2 c hc hne hnot
  | syncEnd _ => exact absurd hc hnot
  | @abort pid =>
      cases pid with
      | some pid => exact (processSpawnList_closes h.pids _ _).2 c hc hne hnot
      | none => exact (h.closes_all _).2 c hc hne hnot

/-- What a reader of the books relies on: the set is that of the children in the list, no
pid occurs twice, and `(receive)` and `(send)` list exactly the children whose socket is
ready. -/
structure Process.Tracked (s : Process) : Prop where
  fdSet : s.myFdSet = sockets s.mySpawnList
  pids : (s.mySpawnList.map SpawnEntry.pid).Nodup
  ready : ∀ ready : ℕ → Bool, getSelectReadyList ready false s =
    (s.mySpawnList.filter fun c => c.socket ≠ 0 ∧ ready c.socket).map SpawnEntry.pid

theorem Process.Booked.tracked (h : s.Booked) : s.Tracked where
  fdSet := h.fdSet
  pids := h.pids
  ready := by
    intro ready
    have hopen : s.myFdSet ⊆ s.descriptors := h.fdSet ▸ h.isOpen
    unfold getSelectReadyList select
    rw [if_neg (by simpa using hopen)]
    dsimp only
    congr 1
    apply List.filter_congr
    intro c hc
    rw [Bool.eq_iff_iff]
    simp only [decide_eq_true_eq, Finset.mem_filter]
    rw [h.fdSet, mem_sockets]
    constructor
    · rintro ⟨⟨hne, -⟩, hready⟩
      exact ⟨hne, hready⟩
    · rintro ⟨hne, hready⟩
      exact ⟨⟨hne, c, hc, rfl⟩, hready⟩

/-- A child that has a socket is in the list as long as its descriptor is open, and as
long as it is in the set. -/
def Together (s s' : Process) : Prop :=
  ∀ c ∈ s.mySpawnList, c.socket ≠ 0 →
    (c ∉ s'.mySpawnList ↔ c.socket ∉ s'.descriptors) ∧
      (c ∉ s'.mySpawnList ↔ c.socket ∉ s'.myFdSet)

theorem Process.Booked.together (h : s'.Booked)
    (hcloses : ∀ c ∈ s.mySpawnList, c.socket ≠ 0 → c ∉ s'.mySpawnList →
      c.socket ∉ s'.descriptors) : Together s s' := by
  intro c hc hne
  have hset : c ∈ s'.mySpawnList → c.socket ∈ s'.myFdSet := fun hmem =>
    h.fdSet ▸ mem_sockets.mpr ⟨hne, c, hmem, rfl⟩
  have hopen : s'.myFdSet ⊆ s'.descriptors := h.fdSet ▸ h.isOpen
  refine ⟨⟨hcloses c hc hne, fun hclosed hmem => hclosed (hopen (hset hmem))⟩, ?_⟩
  exact ⟨fun hnot hmem => hcloses c hc hne hnot (hopen hmem),
    fun hnot hmem => hnot (hset hmem)⟩

/-- In every run whose steps are all clean the books agree in every state, and each step
that takes a child out of the list closes its descriptor and takes it out of the set. -/
theorem children_tracked {start : Process} (hfresh : start.Fresh)
    (hrun : Run isProtected start steps s)
    (hclean : ∀ step ∈ steps, step.2.1.Clean isProtected step.1) :
    s.Tracked ∧ ∀ step ∈ steps, step.1.Tracked ∧ Together step.1 step.2.2 := by
  have hbooked : s.Booked ∧ ∀ step ∈ steps, step.1.Booked ∧ Together step.1 step.2.2 := by
    induction hrun with
    | start => exact ⟨.of_nil hfresh.1 hfresh.2, by simp⟩
    | step _ hstep ih =>
        obtain ⟨hbooked, hsteps⟩ := ih fun step hmem =>
          hclean step (List.mem_append_left _ hmem)
        have hlast := hclean _ (List.mem_append_right _ (List.mem_singleton_self _))
        have hnext := hstep.booked hlast hbooked
        refine ⟨hnext, ?_⟩
        intro step hmem
        rcases List.mem_append.mp hmem with hmem | hmem
        · exact hsteps step hmem
        · obtain rfl := List.mem_singleton.mp hmem
          exact ⟨hbooked, hnext.together (hstep.closes hlast hbooked)⟩
  exact ⟨hbooked.1.tracked, fun step hmem =>
    ⟨(hbooked.2 step hmem).1.tracked, (hbooked.2 step hmem).2⟩⟩

end Runs

section Example

/-- A process that has spawned nothing yet. -/
def idle : Process where
  mySpawnList := []
  myFdSet := ∅
  thisSocket := 0
  parentPid := 0
  sigchld := .signal_handler
  contents := fun _ => .nil
  descriptors := {0, 1, 2}
  children := ∅
  ended := fun _ => none
  shared := fun _ => .nil

/-- A page, a socket pair and a child. -/
def answers (page : ℕ) (fds : ℕ × ℕ) (fork : ForkAnswer) : SpawnAnswers :=
  ⟨some page, some fds, fork, 1⟩

def resultSymbol : Symbol := ⟨"MAIN", "result"⟩

def spawnFirst : Event := .spawn resultSymbol true (answers 0 (3, 4) (.parent 100))
def spawnSecond : Event := .spawn resultSymbol true (answers 1 (4, 5) (.parent 101))

/-- The process that has spawned one child, and two. -/
def oneChild : Process :=
  (forkChild 0 resultSymbol (3, 4) (answers 0 (3, 4) (.parent 100))
    { idle with
      contents := Function.update idle.contents resultSymbol .nil
      descriptors := {3, 4, 0, 1, 2}
      myFdSet := {3} }).1

def twoChildren : Process :=
  (forkChild 1 resultSymbol (4, 5) (answers 1 (4, 5) (.parent 101))
    { oneChild with
      contents := Function.update oneChild.contents resultSymbol .nil
      descriptors := insert 4 (insert 5 oneChild.descriptors)
      myFdSet := insert 4 oneChild.myFdSet }).1

theorem step_first : Step (fun _ => false) idle spawnFirst oneChild := by
  have hpossible : spawnFirst.Possible idle := by
    refine ⟨?_, ?_⟩
    · rintro fds ⟨⟩
      decide
    · rintro pid ⟨⟩
      decide
  have hspawn : p_spawn (fun _ => false) resultSymbol true (answers 0 (3, 4) (.parent 100)) idle =
      some (oneChild, .ok (.long (.ofInt 64 100))) := rfl
  exact .spawn hpossible hspawn

theorem step_second : Step (fun _ => false) oneChild spawnSecond twoChildren := by
  have hpossible : spawnSecond.Possible oneChild := by
    refine ⟨?_, ?_⟩
    · rintro fds ⟨⟩
      decide
    · rintro pid ⟨⟩
      decide
  have hspawn : p_spawn (fun _ => false) resultSymbol true (answers 1 (4, 5) (.parent 101))
      oneChild = some (twoChildren, .ok (.long (.ofInt 64 101))) := rfl
  exact .spawn hpossible hspawn

/-- A child with a socket is spawned and aborted. -/
theorem children_tracked_abort :
    (p_abort (some 100) oneChild).Tracked ∧
      ∀ step ∈ [(idle, spawnFirst, oneChild),
          (oneChild, Event.abort (some 100), p_abort (some 100) oneChild)],
        step.1.Tracked ∧ Together step.1 step.2.2 := by
  have hrun : Run (fun _ => false) idle
      ([] ++ [(idle, spawnFirst, oneChild)] ++
        [(oneChild, .abort (some 100), p_abort (some 100) oneChild)])
      (p_abort (some 100) oneChild) := .step (.step .start step_first) .abort
  refine children_tracked ⟨rfl, rfl⟩ hrun ?_
  intro step hstep
  simp only [List.mem_cons, List.not_mem_nil, or_false] at hstep
  rcases hstep with rfl | rfl
  · intro _ _
    rw [if_pos rfl]
    rintro fds ⟨⟩
    exact ⟨by decide, by decide, 100, rfl⟩
  · exact trivial

/-- The first of two children has ended, and `sync` has collected it. -/
def firstEnded : Process := exits 100 .exited (.long 7) twoChildren

def firstCollected : Process := syncPass (.collected 100 .exited) firstEnded

theorem run_firstCollected : Run (fun _ => false) idle
    [(idle, spawnFirst, oneChild), (oneChild, spawnSecond, twoChildren),
      (twoChildren, .exits 100 .exited (.long 7), firstEnded),
      (firstEnded, .syncPass (.collected 100 .exited), firstCollected)] firstCollected := by
  apply Run.step (Run.step (.step (.step .start step_first) step_second) (.exits ?_))
    (.syncPass ?_)
  · exact ⟨by decide, by decide⟩
  · exact ⟨by decide, by decide, by decide⟩

theorem mySpawnList_firstCollected :
    firstCollected.mySpawnList = [⟨1, resultSymbol, 101, 4⟩] := by
  decide

theorem myFdSet_firstCollected : firstCollected.myFdSet = {3, 4} := by
  decide

theorem not_tracked_firstCollected : ¬ firstCollected.Tracked := by
  intro htracked
  have hsockets := htracked.fdSet
  rw [myFdSet_firstCollected, mySpawnList_firstCollected] at hsockets
  exact absurd hsockets (by decide)

/-- The first of two children ends and `sync` collects it: its descriptor is closed and
stays in the set, so `select` fails, and `(receive)` lists no child, though the socket of
the second is ready. -/
theorem finished_child_hides_others :
    ∃ steps s, idle.Fresh ∧ Run (fun _ => false) idle steps s ∧
      s.mySpawnList = [⟨1, resultSymbol, 101, 4⟩] ∧ s.myFdSet = {3, 4} ∧
      4 ∈ s.descriptors ∧ 3 ∉ s.descriptors ∧
      getSelectReadyList (fun _ => true) false s = [] ∧ ¬ s.Tracked := by
  refine ⟨_, firstCollected, ⟨rfl, rfl⟩, run_firstCollected, mySpawnList_firstCollected,
    myFdSet_firstCollected, ?_, ?_, ?_, not_tracked_firstCollected⟩
  · decide
  · decide
  · decide

end Example

end Spawn

end NewLispNeo
