-- Strings that the user passes: what the calls do with one that cannot be read,
-- when they do not look at the result of the copy.
import ThuKernel.Kernel.Descriptors
import ThuKernel.Kernel.Undone
import ThuKernel.Lib.StrLaws

namespace ThuKernel

variable {lk : Link} {E : Stop → Prop} {k : Kernel} {mem : Bytes} {root va max : Nat}
  {str str' pre pre' name : CStr}

/-! ## The strings of the user -/

/-- The string at a user address, up to its NUL or to `max` bytes. -/
structure StringAt (mem : Bytes) (root va max : Nat) (str : CStr) : Prop where
  bytes : str.bytes = userBytes mem root va str.bytes.length
  mapped : ∀ u < str.bytes.length, Mapped mem root (va + u)
  ends : str.bytes.length = max ∨
    (str.bytes.length < max ∧ userByte mem root (va + str.bytes.length) = 0 ∧
    Mapped mem root (va + str.bytes.length))

/-- The part of a string that can be read, when the byte behind it cannot. -/
structure PrefixAt (mem : Bytes) (root va max : Nat) (pre : CStr) : Prop where
  bytes : pre.bytes = userBytes mem root va pre.bytes.length
  mapped : ∀ u < pre.bytes.length, Mapped mem root (va + u)
  short : pre.bytes.length < max
  stops : ¬ Mapped mem root (va + pre.bytes.length)

/-- The string can be read. -/
def Readable (mem : Bytes) (root va max : Nat) : Prop := ∃ str, StringAt mem root va max str

/-- A string that a call may go on with, whatever was on its stack. -/
def MayRead (mem : Bytes) (root va max : Nat) (name : CStr) : Prop :=
  StringAt mem root va max name ∨
    (name.bytes.length ≤ max ∧ ∃ pre, PrefixAt mem root va max pre ∧ pre.bytes <+: name.bytes)

theorem userBytes_ne {u : Nat} (h : str.bytes = userBytes mem root va str.bytes.length)
    (hu : u < str.bytes.length) :
    userByte mem root (va + u) ≠ 0 := by
  have hbyte : str.bytes[u] = userByte mem root (va + u) := by
    rw [List.getElem_of_eq h hu]
    simp [userBytes, userByte]
  rw [← hbyte]
  exact str.nonzero _ (List.getElem_mem hu)

theorem userBytes_eq (h : str.bytes = userBytes mem root va str.bytes.length)
    (h' : str'.bytes = userBytes mem root va str'.bytes.length)
    (hlen : str.bytes.length = str'.bytes.length) :
    str = str' := by
  apply CStr.ext
  rw [h, h', hlen]

theorem StringAt.unique (h : StringAt mem root va max str) (h' : StringAt mem root va max str') :
    str = str' := by
  apply userBytes_eq h.bytes h'.bytes
  have hle : ∀ {s t : CStr}, StringAt mem root va max s → StringAt mem root va max t →
      ¬ s.bytes.length < t.bytes.length := by
    intro s t hs ht hlt
    rcases hs.ends with hmax | ⟨_, hzero, _⟩
    · rcases ht.ends with h1 | ⟨h1, _⟩
      · omega
      · omega
    · exact userBytes_ne ht.bytes hlt hzero
  have h1 := hle h h'
  have h2 := hle h' h
  omega

theorem PrefixAt.unique (h : PrefixAt mem root va max pre) (h' : PrefixAt mem root va max pre') :
    pre = pre' := by
  apply userBytes_eq h.bytes h'.bytes
  have hle : ∀ {s t : CStr}, PrefixAt mem root va max s → PrefixAt mem root va max t →
      ¬ s.bytes.length < t.bytes.length := fun hs ht hlt => hs.stops (ht.mapped _ hlt)
  have h1 := hle h h'
  have h2 := hle h' h
  omega

/-- A string is read to its end, or it is not. -/
theorem StringAt.not_prefix (h : StringAt mem root va max str) :
    ¬ ∃ pre, PrefixAt mem root va max pre := by
  rintro ⟨pre, hpre⟩
  have hshort := hpre.short
  rcases Nat.lt_trichotomy pre.bytes.length str.bytes.length with hlt | heq | hgt
  · exact hpre.stops (h.mapped _ hlt)
  · rcases h.ends with hmax | ⟨_, _, hm⟩
    · omega
    · exact hpre.stops (heq ▸ hm)
  · rcases h.ends with hmax | ⟨_, hzero, _⟩
    · omega
    · exact userBytes_ne hpre.bytes hgt hzero

/-! ## What a copy leaves in its buffer -/

theorem take_userBytes {m n : Nat} (h : m ≤ n) :
    (userBytes mem root va n).take m = userBytes mem root va m := by
  unfold userBytes
  rw [← List.map_take, List.take_range, Nat.min_eq_left h]

/-- The bytes of a copy that ends with `max` of them, with a NUL, or before a byte
that is not mapped. -/
structure CopiedBytes (mem : Bytes) (root va max : Nat) (l : List Byte) : Prop where
  bytes : l = userBytes mem root va l.length
  mapped : ∀ u < l.length, Mapped mem root (va + u)
  le : l.length ≤ max
  ends : l.length = max ∨ (0 : Byte) ∈ l ∨ ¬ Mapped mem root (va + l.length)

theorem CopiedStr.copiedBytes {s : Mm} {r : Int × List Byte} (h : CopiedStr s root va max 0 r) :
    CopiedBytes s.mem root va max r.2 := by
  obtain ⟨hbytes, hmapped, hend⟩ := h
  rcases hend with ⟨n, hn, _, hlen, _, hzero⟩ | ⟨_, hlen, _⟩ | ⟨_, hlt, _, hstop⟩
  · refine ⟨hbytes, hmapped, by omega, Or.inr (Or.inl ?_)⟩
    have hat : n < r.2.length := by omega
    have hbyte : r.2[n] = userByte s.mem root (va + n) := by
      rw [List.getElem_of_eq hbytes hat]
      simp [userBytes, userByte]
    rw [← hzero, ← hbyte]
    exact List.getElem_mem hat
  · exact ⟨hbytes, hmapped, hlen.le, Or.inl hlen⟩
  · exact ⟨hbytes, hmapped, hlt.le, Or.inr (Or.inr hstop)⟩

theorem CopiedIn.copiedBytes {s : Mm} {r : Int × List Byte} (h : CopiedIn s root va max r) :
    CopiedBytes s.mem root va max r.2 := by
  obtain ⟨hbytes, hmapped, ⟨_, hlen⟩ | ⟨_, hlt, hstop⟩⟩ := h
  · exact ⟨hbytes, hmapped, hlen.le, Or.inl hlen⟩
  · exact ⟨hbytes, hmapped, hlt.le, Or.inr (Or.inr hstop)⟩

/-- Such a copy gives the string, or the part of it that can be read and what was
on the stack. -/
theorem CopiedBytes.reads {l : List Byte} (h : CopiedBytes mem root va max l) (stack : Bytes) :
    StringAt mem root va max (CStr.ofBytes (stack.store 0 l) 0 max) ∨
      ∃ pre, PrefixAt mem root va max pre ∧ l = pre.bytes := by
  obtain ⟨hbytes, hmapped, hlen, hend⟩ := h
  have hstore : ∀ i (hi : i < l.length), stack.store 0 l (0 + i) = l[i] := by
    intro i hi
    rw [Nat.zero_add, Bytes.store_inside (Nat.zero_le i) hi]
    rfl
  by_cases hnul : (0 : Byte) ∈ l
  · -- The bytes before the first NUL.
    obtain ⟨p, rest, hp, hno⟩ := List.eq_append_cons_of_mem hnul
    have hlt : p.length < l.length := by
      rw [hp, List.length_append, List.length_cons]
      omega
    have htake : p = l.take p.length := by
      rw [hp, List.take_left]
    have hfind : CStr.find (stack.store 0 l) 0 max = p := by
      apply CStr.find_nul
      · intro i hi
        rw [hstore i (by omega)]
        simp [hp, hi]
      · intro x hx hc
        exact hno (hc ▸ hx)
      · omega
      · rw [hstore p.length hlt]
        simp [hp]
    have hstr : (CStr.ofBytes (stack.store 0 l) 0 max).bytes = p := hfind
    refine Or.inl ⟨?_, fun u hu => hmapped u ?_, Or.inr ⟨?_, ?_, ?_⟩⟩
    · rw [hstr]
      rw [hbytes, take_userBytes hlt.le] at htake
      exact htake
    · rw [hstr] at hu
      omega
    · rw [hstr]
      omega
    · rw [hstr]
      have hat : l[p.length] = userByte mem root (va + p.length) := by
        rw [List.getElem_of_eq hbytes hlt]
        simp [userBytes, userByte]
      rw [← hat]
      simp [hp]
    · rw [hstr]
      exact hmapped _ hlt
  · have hne : ∀ x ∈ l, x ≠ 0 := fun x hx hc => hnul (hc ▸ hx)
    by_cases hmax : l.length = max
    · have hfind : CStr.find (stack.store 0 l) 0 max = l := by
        rw [CStr.find_append hstore hne hlen, hmax, Nat.sub_self, CStr.find, List.append_nil]
      have hstr : (CStr.ofBytes (stack.store 0 l) 0 max).bytes = l := hfind
      exact Or.inl ⟨by rw [hstr]; exact hbytes, fun u hu => hmapped u (by rwa [hstr] at hu),
        Or.inl (by rw [hstr]; exact hmax)⟩
    · refine Or.inr ⟨⟨l, hne⟩, ⟨hbytes, hmapped, by dsimp only; omega, ?_⟩, rfl⟩
      rcases hend with hc | hc | hc
      · exact absurd hc hmax
      · exact absurd hc hnul
      · exact hc

/-- What the buffer holds is a string that the call may go on with. -/
theorem CopiedBytes.mayRead {l : List Byte} (h : CopiedBytes mem root va max l) (stack : Bytes) :
    MayRead mem root va max (CStr.ofBytes (stack.store 0 l) 0 max) := by
  rcases h.reads stack with hstr | ⟨pre, hpre, rfl⟩
  · exact Or.inl hstr
  · refine Or.inr ⟨CStr.length_find _ _ _, pre, hpre, ?_⟩
    have hfind : CStr.find (stack.store 0 pre.bytes) 0 max =
        pre.bytes ++ CStr.find (stack.store 0 pre.bytes) (0 + pre.bytes.length)
        (max - pre.bytes.length) := by
      apply CStr.find_append
      · intro i hi
        rw [Nat.zero_add, Bytes.store_inside (Nat.zero_le i) hi]
        rfl
      · exact pre.nonzero
      · exact hpre.short.le
    exact ⟨_, hfind.symm⟩

/-- With the name on the stack before, the buffer holds the name. -/
theorem MayRead.from_stack {l : List Byte} (h : MayRead mem root va max name)
    (hl : CopiedBytes mem root va max l) :
    CStr.ofBytes (name.read.store 0 l) 0 max = name := by
  rcases hl.reads name.read with hstr | ⟨pre, hpre, rfl⟩
  · rcases h with h | ⟨_, pre, hpre, _⟩
    · exact hstr.unique h
    · exact absurd ⟨pre, hpre⟩ hstr.not_prefix
  · rcases h with h | ⟨hle, pre', hpre', hbegins⟩
    · exact absurd ⟨pre, hpre⟩ h.not_prefix
    · obtain rfl := hpre.unique hpre'
      rw [CStr.read_store hbegins, CStr.ofBytes_read hle]

/-- A string that is read is the only one that the call may go on with. -/
theorem StringAt.mayRead_eq (h : StringAt mem root va max str)
    (hname : MayRead mem root va max name) : name = str := by
  rcases hname with hname | ⟨_, pre, hpre, _⟩
  · exact hname.unique h
  · exact absurd ⟨pre, hpre⟩ h.not_prefix

/-! ## Calls that take strings -/

/-- No process, no open file and nothing on the disk has changed. -/
structure NoEffect (k k' : Kernel) : Prop where
  pool : k'.pool = k.pool
  refs : ∀ f, (k'.filepool f).ref = (k.filepool f).ref
  files : ∀ f, 0 < (k.filepool f).ref → k'.filepool f = k.filepool f
  disk : k'.fs.bio.disk = k.fs.bio.disk

/-- The call returns -1 without an effect. -/
def Refuses (k : Kernel) (f : Prog Kernel Int) : Prop :=
  Runs (fun _ => False) f k fun r k' => r = -1 ∧ NoEffect k k'

/-- Whatever was on its stack, the call acts on the strings that it is given, and
refuses strings that it cannot read. -/
def ActsOn {σ α : Type} (k : Kernel) (call : σ → Prog Kernel Int) (act : α → Prog Kernel Int)
    (Is : α → Prop) (Can : Prop) : Prop :=
  ∀ stack, (∀ x, Is x → call stack k = act x k) ∧ (¬ Can → Refuses k (call stack))

theorem refuses_congr {f g : Prog Kernel Int} (h : f k = g k) : Refuses k f ↔ Refuses k g := by
  unfold Refuses Runs
  rw [h]

/-- A call that goes on with any string it may read is right just when it can
read it, or the strings that it may read are all refused. -/
theorem actsOn_iff {σ α : Type} {call : σ → Prog Kernel Int} {act : α → Prog Kernel Int}
    {Is May : α → Prop} {Can : Prop} (hcall : ∀ stack, ∃ x, May x ∧ call stack k = act x k)
    (hmay : ∀ x, May x → ∃ stack, call stack k = act x k)
    (his : ∀ x, Is x → Can ∧ ∀ y, May y → y = x) :
    ActsOn k call act Is Can ↔ Can ∨ ∀ x, May x → Refuses k (act x) := by
  constructor
  · intro h
    by_cases hcan : Can
    · exact Or.inl hcan
    · refine Or.inr fun x hx => ?_
      obtain ⟨stack, hstack⟩ := hmay x hx
      exact (refuses_congr hstack).mp ((h stack).2 hcan)
  · intro h stack
    obtain ⟨x, hx, hstack⟩ := hcall stack
    refine ⟨fun y hy => ?_, fun hcan => ?_⟩
    · rw [hstack, (his y hy).2 x hx]
    · exact (refuses_congr hstack).mpr (h.resolve_left hcan x hx)

/-! ## The copies of the calls -/

/-- The caller's page table. -/
def callerRoot (k : Kernel) : Nat := (k.pool k.current_proc).pagetable

theorem copyinName_ok (stack : Bytes) (va : Nat) :
    ∃ l, CopiedBytes k.mm.mem (callerRoot k) va PATH_SIZE l ∧
    copyinName stack va k = .ok (CStr.ofBytes (stack.store 0 l) 0 PATH_SIZE, k) := by
  have hrun : Runs (fun _ => False) (copyinName stack va) k fun r k' => k' = k ∧
      ∃ l, CopiedBytes k.mm.mem (callerRoot k) va PATH_SIZE l ∧
      r = CStr.ofBytes (stack.store 0 l) 0 PATH_SIZE := by
    unfold copyinName
    rw [Runs.bind_iff, runs_curr_proc, Runs.bind_iff, runs_onMm]
    apply (copyinstr_copies _ _ _).imp
    rintro ⟨r, bytes⟩ m ⟨rfl, hcopied⟩
    exact ⟨rfl, bytes, hcopied.copiedBytes, rfl⟩
  obtain ⟨_, _, hok, rfl, l, hl, rfl⟩ := hrun.exists_ok fun _ he => he
  exact ⟨l, hl, hok⟩

theorem copyinPath_ok (stack : Bytes) (va : Nat) :
    ∃ l, CopiedBytes k.mm.mem (callerRoot k) va DIRSIZ l ∧
    copyinPath stack va k = .ok (stack.store 0 l, k) := by
  have hrun : Runs (fun _ => False) (copyinPath stack va) k fun r k' => k' = k ∧
      ∃ l, CopiedBytes k.mm.mem (callerRoot k) va DIRSIZ l ∧ r = stack.store 0 l := by
    unfold copyinPath
    rw [Runs.bind_iff, runs_curr_proc, Runs.bind_iff, runs_onMm]
    apply (copyin_runs _ _ _).imp
    rintro ⟨r, bytes⟩ m ⟨rfl, hcopied⟩
    exact ⟨rfl, bytes, hcopied.copiedBytes, rfl⟩
  obtain ⟨_, _, hok, rfl, l, hl, rfl⟩ := hrun.exists_ok fun _ he => he
  exact ⟨l, hl, hok⟩

/-- The string of at most `max` bytes at `va` in the caller's memory. -/
def StringIs (k : Kernel) (va max : Nat) (str : CStr) : Prop :=
  StringAt k.mm.mem (callerRoot k) va max str

def CanRead (k : Kernel) (va max : Nat) : Prop := Readable k.mm.mem (callerRoot k) va max

def MayName (k : Kernel) (va max : Nat) (name : CStr) : Prop :=
  MayRead k.mm.mem (callerRoot k) va max name

def ExecFine (lk : Link) (k : Kernel) (va : Nat) : Prop :=
  ActsOn k (fun name => sys_exec lk name va) (exec lk) (StringIs k va PATH_SIZE)
    (CanRead k va PATH_SIZE)

def SpawnFine (lk : Link) (k : Kernel) (va : Nat) : Prop :=
  ActsOn k (fun name => sys_spawn lk name va) (spawn lk) (StringIs k va PATH_SIZE)
    (CanRead k va PATH_SIZE)

def OpenFine (lk : Link) (k : Kernel) (va omode : Nat) : Prop :=
  ActsOn k (fun path => sys_openat lk path va omode) (fun path => fileopen lk path omode)
    (StringIs k va PATH_SIZE) (CanRead k va PATH_SIZE)

/-- The link of two names. -/
def linkNames (names : CStr × CStr) : Prog Kernel Int := onFs (linkat names.1.read names.2.read)

def LinkFine (k : Kernel) (oldpath_ newpath_ : Nat) : Prop :=
  ActsOn k (fun bufs : Bytes × Bytes => sys_linkat bufs.1 bufs.2 oldpath_ newpath_) linkNames
    (fun names => StringIs k oldpath_ DIRSIZ names.1 ∧ StringIs k newpath_ DIRSIZ names.2)
    (CanRead k oldpath_ DIRSIZ ∧ CanRead k newpath_ DIRSIZ)

/-- The name is unlinked with nothing behind it. -/
def UnlinkFine (k : Kernel) (path_ : Nat) : Prop :=
  ActsOn k (fun bufs : Bytes × Bytes => sys_unlinkat bufs.1 bufs.2 path_)
    (fun name : CStr => onFs (unlinkat name.read zeros)) (StringIs k path_ DIRSIZ)
    (CanRead k path_ DIRSIZ)

/-- The next step starts where the copy ended. -/
theorem bind_ok {σ α β : Type} {f : Prog σ α} {g : α → Prog σ β} {s s' : σ} {a : α}
    (h : f s = .ok (a, s')) :
    (f >>= g) s = g a s' := by
  simp only [bind, StateT.bind, h, Except.bind]

/-- A call that reads one string of at most 200 bytes. -/
theorem named_call_iff {act : CStr → Prog Kernel Int} (va : Nat) :
    ActsOn k (fun stack => copyinName stack va >>= act) act (StringIs k va PATH_SIZE)
    (CanRead k va PATH_SIZE) ↔
      CanRead k va PATH_SIZE ∨ ∀ name, MayName k va PATH_SIZE name → Refuses k (act name) := by
  apply actsOn_iff
  · intro stack
    obtain ⟨l, hl, hok⟩ := copyinName_ok (k := k) stack va
    exact ⟨_, hl.mayRead stack, bind_ok hok⟩
  · intro name hname
    obtain ⟨l, hl, hok⟩ := copyinName_ok (k := k) name.read va
    refine ⟨name.read, ?_⟩
    rw [bind_ok hok, hname.from_stack hl]
  · exact fun str hstr => ⟨⟨str, hstr⟩, fun name hname => hstr.mayRead_eq hname⟩

/-! ## exec and spawn -/

/-- An application that `exec` finds is never refused. -/
theorem exec_some {id : Nat} (h : get_id_by_name lk name = some id) :
    Runs (fun _ => True) (exec lk name) k fun r _ => r = 0 := by
  unfold exec
  rw [h]
  dsimp only
  rw [Runs.bind_iff, runs_curr_proc, Runs.bind_iff]
  apply Runs.of_forall
  intro _ _ _
  rw [Runs.bind_iff]
  apply Runs.of_forall
  intro pagetable _ _
  rw [Runs.bind_iff, runs_modifyCurr]
  split
  · trivial
  · rw [Runs.bind_iff, Runs.get_iff, Runs.bind_iff]
    apply Runs.of_forall
    intro _ _ _
    rfl

theorem exec_refuses_iff : Refuses k (exec lk name) ↔ get_id_by_name lk name = none := by
  constructor
  · intro h
    cases hid : get_id_by_name lk name with
    | none => rfl
    | some id =>
      obtain ⟨r, _, _, ⟨hr, _⟩, hzero⟩ :=
        (h.and (exec_some (k := k) hid)).exists_ok fun e he => he.1
      omega
  · intro h
    unfold Refuses exec
    rw [h]
    exact ⟨rfl, rfl, fun _ => rfl, fun _ _ => rfl, rfl⟩

/-- No application has the name: it differs from each within the first 100
characters. -/
theorem get_id_none : get_id_by_name lk name = none ↔
    ∀ app ∈ lk.apps, name.bytes.take 100 ≠ app.name.bytes.take 100 := by
  have hcmp : ∀ app : App, strncmp name.read app.name.read 100 = 0 ↔
      name.bytes.take 100 = app.name.bytes.take 100 := by
    intro app
    rw [strncmp_eq_zero, CStr.find_read, CStr.find_read]
  unfold get_id_by_name
  rw [List.find?_eq_none]
  constructor
  · intro h app happ heq
    obtain ⟨i, hi, rfl⟩ := List.getElem_of_mem happ
    have := h i (List.mem_range.mpr hi)
    rw [List.getElem?_eq_getElem hi] at this
    exact this (by simpa using (hcmp _).mpr heq)
  · intro h i hi
    rw [List.mem_range] at hi
    rw [List.getElem?_eq_getElem hi]
    intro hc
    exact h _ (List.getElem_mem hi) ((hcmp _).mp (by simpa using hc))

/-- Some application is found, whatever could not be read, when its name begins
with what could. -/
theorem PrefixAt.no_app_iff (hpre : PrefixAt mem root va PATH_SIZE pre) :
    (∀ name, MayRead mem root va PATH_SIZE name → get_id_by_name lk name = none) ↔
      ∀ app ∈ lk.apps, ¬ pre.bytes.take 100 <+: app.name.bytes := by
  have hshort := hpre.short
  constructor
  · intro h app happ hbegins
    by_cases hlong : 100 ≤ pre.bytes.length
    · have hnone := get_id_none.mp (h pre (Or.inr ⟨hshort.le, pre, hpre, List.prefix_rfl⟩)) app happ
      apply hnone
      have hlen : (pre.bytes.take 100).length = 100 := by
        rw [List.length_take]
        omega
      have := List.prefix_iff_eq_take.mp hbegins
      rwa [hlen] at this
    · -- The first 100 characters of its name.
      have hname : ∀ b ∈ app.name.bytes.take 100, b ≠ 0 :=
        fun b hb => app.name.nonzero b (List.mem_of_mem_take hb)
      rw [List.take_of_length_le (by omega)] at hbegins
      have hle : (app.name.bytes.take 100).length ≤ PATH_SIZE := by
        rw [List.length_take]
        unfold PATH_SIZE
        omega
      have hmay : MayRead mem root va PATH_SIZE ⟨app.name.bytes.take 100, hname⟩ := by
        refine Or.inr ⟨hle, pre, hpre, ?_⟩
        exact List.prefix_take_iff.mpr ⟨hbegins, by omega⟩
      apply get_id_none.mp (h _ hmay) app happ
      dsimp only
      rw [List.take_take, Nat.min_self]
  · intro h name hname
    rw [get_id_none]
    intro app happ heq
    rcases hname with hname | ⟨_, pre', hpre', hbegins⟩
    · exact hname.not_prefix ⟨pre, hpre⟩
    · obtain rfl := hpre.unique hpre'
      apply h app happ
      have h1 : pre.bytes.take 100 <+: name.bytes.take 100 := hbegins.take 100
      rw [heq] at h1
      exact h1.trans (List.take_prefix 100 _)

/-- An application that `spawn` finds gives a pid. -/
theorem spawn_some {id : Nat} (h : get_id_by_name lk name = some id) :
    Runs (fun _ => True) (spawn lk name) k fun r _ => 0 ≤ r := by
  rw [runs_spawn]
  refine Runs.of_forall fun r k₁ _ =>
    ⟨fun _ => trivial, fun np k₂ _ _ => ⟨fun hc => ?_, fun id _ => ?_⟩⟩
  · rw [h] at hc
    cases hc
  · exact Runs.of_forall fun _ _ _ => Int.natCast_nonneg _

/-- `spawn` is never refused: it has made a process before it looks for the
application. -/
theorem spawn_not_refused : ¬ Refuses k (spawn lk name) := by
  intro hrefused
  cases hid : get_id_by_name lk name with
  | none =>
    obtain ⟨_, k', _, ⟨_, heffect⟩, _, np, hslot, hstate, _⟩ :=
      (hrefused.and (spawn_leaves_kid hid)).exists_ok fun e he => he.1
    rw [heffect.pool, freeSlot_some hslot] at hstate
    cases hstate
  | some id =>
    obtain ⟨r, _, _, ⟨hr, _⟩, hpid⟩ :=
      (hrefused.and (spawn_some (k := k) hid)).exists_ok fun e he => he.1
    omega

/-! ## The calls on the directory -/

theorem sys_openat_eq (stack : Bytes) (va omode : Nat) :
    sys_openat lk stack va omode = copyinName stack va >>= fun name => fileopen lk name omode := by
  unfold sys_openat copyinName
  simp only [bind_assoc, pure_bind]

/-- A link depends on the names in the buffers. -/
theorem linkat_names (oldpath newpath : Bytes) : linkat oldpath newpath =
    linkat (CStr.ofBytes oldpath 0 DIRSIZ).read (CStr.ofBytes newpath 0 DIRSIZ).read := by
  have hself : ∀ b : Bytes, CStr.ofBytes (CStr.ofBytes b 0 DIRSIZ).read 0 DIRSIZ =
      CStr.ofBytes b 0 DIRSIZ :=
    fun b => CStr.ofBytes_read (CStr.length_find b 0 DIRSIZ)
  have hcmp : strncmp oldpath newpath DIRSIZ = 0 ↔
      strncmp (CStr.ofBytes oldpath 0 DIRSIZ).read (CStr.ofBytes newpath 0 DIRSIZ).read DIRSIZ =
      0 := by
    rw [strncmp_eq_zero, strncmp_eq_zero]
    have h1 := congrArg CStr.bytes (hself oldpath)
    have h2 := congrArg CStr.bytes (hself newpath)
    exact Iff.of_eq (congrArg₂ _ h1.symm h2.symm)
  unfold linkat
  rw [hself, hself]
  simp only [hcmp]

theorem linkFine_iff (oldpath_ newpath_ : Nat) : LinkFine k oldpath_ newpath_ ↔
    (CanRead k oldpath_ DIRSIZ ∧ CanRead k newpath_ DIRSIZ) ∨
      ∀ names : CStr × CStr, MayName k oldpath_ DIRSIZ names.1 ∧ MayName k newpath_ DIRSIZ names.2 →
        Refuses k (linkNames names) := by
  have hcall : ∀ bufs : Bytes × Bytes, ∃ l l',
      CopiedBytes k.mm.mem (callerRoot k) oldpath_ DIRSIZ l ∧
      CopiedBytes k.mm.mem (callerRoot k) newpath_ DIRSIZ l' ∧
      sys_linkat bufs.1 bufs.2 oldpath_ newpath_ k = linkNames
        (CStr.ofBytes (bufs.1.store 0 l) 0 DIRSIZ, CStr.ofBytes (bufs.2.store 0 l') 0 DIRSIZ)
        k := by
    intro bufs
    obtain ⟨l, hl, hok⟩ := copyinPath_ok (k := k) bufs.1 oldpath_
    obtain ⟨l', hl', hok'⟩ := copyinPath_ok (k := k) bufs.2 newpath_
    refine ⟨l, l', hl, hl', ?_⟩
    unfold sys_linkat linkNames
    rw [bind_ok hok, bind_ok hok', linkat_names]
  apply actsOn_iff
  · intro bufs
    obtain ⟨l, l', hl, hl', hok⟩ := hcall bufs
    exact ⟨(_, _), ⟨hl.mayRead bufs.1, hl'.mayRead bufs.2⟩, hok⟩
  · rintro ⟨old, new⟩ ⟨hold, hnew⟩
    obtain ⟨l, l', hl, hl', hok⟩ := hcall (old.read, new.read)
    refine ⟨(old.read, new.read), ?_⟩
    rw [hok, hold.from_stack hl, hnew.from_stack hl']
  · rintro ⟨old, new⟩ ⟨hold, hnew⟩
    refine ⟨⟨⟨old, hold⟩, ⟨new, hnew⟩⟩, ?_⟩
    rintro ⟨old', new'⟩ ⟨hold', hnew'⟩
    exact Prod.ext (hold.mayRead_eq hold') (hnew.mayRead_eq hnew')

/-- With a name that ends within the 14 bytes, what lies behind `de` is not read. -/
theorem dirremove_behind {dp : Nat} (behind behind' : Bytes) (h : name.bytes.length ≤ DIRSIZ) :
    dirremove dp name behind = dirremove dp name behind' := by
  have hcmp : ∀ de : List Byte, strncmp (direntName de behind) name.read name.strlen =
      strncmp (direntName de behind') name.read name.strlen := by
    intro de
    apply strncmp_congr
    · intro i hi
      have hlt : i < DIRSIZ := by
        unfold CStr.strlen at hi
        omega
      unfold direntName
      rw [if_pos hlt, if_pos hlt]
    · exact fun _ _ => rfl
  unfold dirremove
  simp only [hcmp]

theorem unlinkat_name {path behind : Bytes} (h : CStr.ofBytes path 0 KSTACK_SIZE = name)
    (hlen : name.bytes.length ≤ DIRSIZ) : unlinkat path behind = unlinkat name.read zeros := by
  have hself : CStr.ofBytes name.read 0 KSTACK_SIZE = name :=
    CStr.ofBytes_read (hlen.trans (by decide))
  unfold unlinkat dirunlink
  rw [h, hself]
  simp only [dirremove_behind behind zeros hlen]

/-- A name that ends with a NUL among its first 14 bytes is unlinked as it is. -/
theorem unlinkFine {path_ : Nat} (hstr : StringIs k path_ DIRSIZ str)
    (hends : str.bytes.length < DIRSIZ) :
    UnlinkFine k path_ := by
  intro bufs
  refine ⟨fun name hname => ?_, fun hcan => absurd ⟨str, hstr⟩ hcan⟩
  obtain rfl := StringAt.unique hname hstr
  obtain ⟨l, hl, hok⟩ := copyinPath_ok (k := k) bufs.1 path_
  have hbuffer : CStr.ofBytes (bufs.1.store 0 l) 0 DIRSIZ = name :=
    StringAt.mayRead_eq hname (hl.mayRead bufs.1)
  have hfind : CStr.ofBytes (bufs.1.store 0 l) 0 KSTACK_SIZE = name := by
    rw [← hbuffer] at hends ⊢
    exact CStr.ext (CStr.find_longer hends (by decide))
  unfold sys_unlinkat
  dsimp only
  rw [bind_ok hok, unlinkat_name hfind hends.le]

/-! ## exec and spawn, for all stacks -/

theorem execFine_iff (va : Nat) : ExecFine lk k va ↔ CanRead k va PATH_SIZE ∨
    ∀ pre, PrefixAt k.mm.mem (callerRoot k) va PATH_SIZE pre →
      ∀ app ∈ lk.apps, ¬ pre.bytes.take 100 <+: app.name.bytes := by
  apply (named_call_iff va).trans
  simp only [exec_refuses_iff]
  apply or_congr_right'
  intro hcan
  constructor
  · exact fun h pre hpre => hpre.no_app_iff.mp h
  · intro h name hname
    have hmay := hname
    rcases hmay with hstr | ⟨_, pre, hpre, _⟩
    · exact absurd ⟨name, hstr⟩ hcan
    · exact hpre.no_app_iff.mpr (h pre hpre) name hname

theorem spawnFine_iff (va : Nat) : SpawnFine lk k va ↔ CanRead k va PATH_SIZE := by
  apply (named_call_iff va).trans
  refine ⟨fun h => h.resolve_right fun hall => ?_, Or.inl⟩
  obtain ⟨l, hl, _⟩ := copyinName_ok (k := k) zeros va
  exact spawn_not_refused (hall _ (hl.mayRead zeros))

end ThuKernel
