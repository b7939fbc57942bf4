-- The table of application names of loader.c, which `batchinit` fills from what pack.py
-- puts into the kernel.
import ThuKernel.Kernel.Proc
import ThuKernel.Lib.StrLaws
import Mathlib.Data.List.Find
import Mathlib.Algebra.Order.BigOperators.Group.List

namespace ThuKernel

/-- `char names[30][100];` -/
def NAME_ROWS : Nat := 30
def NAME_SIZE : Nat := 100

/-- What link_app.S puts at `_app_num`, and from `_app_names` on. -/
structure LinkApp where
  _app_num : Nat
  _app_names : List Byte

/-- The number and the names of the applications, as pack.py writes them. -/
def pack (apps : List CStr) : LinkApp :=
  ⟨apps.length % 2 ^ 64, apps.flatMap fun app => app.bytes ++ [0]⟩

/-- The variables of loader.c. -/
structure AppTable where
  app_num : Int
  names : Bytes

namespace AppTable

/-- The variables after `clean_bss`. -/
def zero : AppTable := ⟨0, fun _ => 0⟩

/-- `names[i]` -/
def row (t : AppTable) (i : Nat) : Bytes := fun k => t.names (NAME_SIZE * i + k)

/-- `strlen(s)`, where `s` points to these bytes. -/
def strlen (s : List Byte) : Nat := (s.takeWhile (· ≠ 0)).length

/-- `strncpy(names[i], s, len)`, when it stores `bytes`. What lies behind the table
belongs to something else. -/
def setName (i : Nat) (bytes : List Byte) : Prog AppTable Unit :=
  if bytes = [] ∨ NAME_SIZE * i + bytes.length ≤ NAME_ROWS * NAME_SIZE then
    modify fun t => { t with names := t.names.store (NAME_SIZE * i) bytes }
  else Prog.fault "names: behind the table"

def batchinitLoop : (n : Nat) → (i : Nat) → (s : List Byte) → Prog AppTable Unit
  | 0, _, _ => pure ()
  | n + 1, i, s => do
    let len := strlen s
    setName i (strncpy (fun k => (s[k]?).getD 0) len)
    batchinitLoop n (i + 1) (s.drop (len + 1))

/-- `app_num` is an `int`. -/
def batchinit (link : LinkApp) : Prog AppTable Unit := do
  modify fun t => { t with app_num := (BitVec.ofNat 32 link._app_num).toInt }
  let t ← get
  batchinitLoop t.app_num.toNat 0 link._app_names

def get_id_by_nameLoop (name : CStr) : (n : Nat) → (i : Nat) → Prog AppTable Int
  | 0, _ => pure (-1)
  | n + 1, i => do
    let t ← get
    if NAME_ROWS ≤ i then Prog.fault "names: behind the table"
    else if strncmp name.read (t.row i) NAME_SIZE = 0 then pure i
    else get_id_by_nameLoop name n (i + 1)

def get_id_by_name (name : CStr) : Prog AppTable Int := do
  let t ← get
  get_id_by_nameLoop name t.app_num.toNat 0

/-! ## The table as a list of names -/

/-- `names[i]` is in the table, and is the string `name`. -/
def RowIs (t : AppTable) (i : Nat) (name : CStr) : Prop :=
  i < NAME_ROWS ∧ CStr.ofBytes (t.row i) 0 NAME_SIZE = name

/-- What the table is for: `batchinit` returns, without a write behind the table, each
row is its name, and `get_id_by_name` finds the names that were packed and no others. -/
def Right (apps : List CStr) : Prop :=
  ∃ t, batchinit (pack apps) zero = .ok ((), t) ∧
    (∀ i name, apps[i]? = some name → RowIs t i name) ∧
    ∀ name, ∃ r, get_id_by_name name t = .ok (r, t) ∧ (∀ i : Nat, r = i ↔ apps[i]? = some name) ∧
    (r = -1 ↔ name ∉ apps)

variable {E : Stop → Prop} {apps : List CStr} {name name' : CStr} {t t' : AppTable} {i j n : Nat}
  {l s : List Byte}

/-! ## batchinit -/

/-- The bytes of a string are copied as they are. -/
theorem strncpy_bytes {b : Bytes} (hl : ∀ i (hi : i < l.length), b i = l[i])
    (hne : ∀ x ∈ l, x ≠ 0) : strncpy b l.length = l := by
  induction l generalizing b with
  | nil => rfl
  | cons x l ih =>
    have h0 : b 0 = x := hl 0 (Nat.succ_pos _)
    have hrest : strncpy (fun i => b (i + 1)) l.length = l :=
      ih (fun i hi => hl (i + 1) (Nat.succ_lt_succ hi)) fun y hy =>
        hne y (List.mem_cons_of_mem _ hy)
    have hx : b 0 ≠ 0 := by
      rw [h0]
      exact hne x (List.mem_cons_self ..)
    rw [List.length_cons, strncpy, if_neg hx, h0, hrest]

/-- The first name of what pack.py wrote. -/
theorem strlen_packed (name : CStr) (s : List Byte) :
    strlen (name.bytes ++ [0] ++ s) = name.bytes.length := by
  have hpos : ∀ x ∈ name.bytes, decide (x ≠ 0) = true :=
    fun x hx => decide_eq_true (name.nonzero x hx)
  unfold strlen
  rw [List.append_assoc, List.takeWhile_append_of_pos hpos]
  simp

theorem strncpy_packed (name : CStr) (s : List Byte) :
    strncpy (fun k => ((name.bytes ++ [0] ++ s)[k]?).getD 0) name.bytes.length = name.bytes := by
  refine strncpy_bytes (fun i hi => ?_) name.nonzero
  rw [List.append_assoc, List.getElem?_append_left hi, List.getElem?_eq_getElem hi]
  rfl

theorem drop_packed (name : CStr) (s : List Byte) :
    (name.bytes ++ [0] ++ s).drop (name.bytes.length + 1) = s := by
  have hlen : name.bytes.length + 1 = (name.bytes ++ [0]).length := by simp
  rw [hlen, List.drop_left]

/-- A name that is stored into a row of zeros, when it is shorter than the row. -/
theorem rowIs_store (hi : i < NAME_ROWS) (hlen : name.bytes.length < NAME_SIZE)
    (hzero : ∀ k < NAME_SIZE, t.row i k = 0) :
    RowIs { t with names := t.names.store (NAME_SIZE * i) name.bytes } i name := by
  refine ⟨hi, CStr.ext ?_⟩
  apply CStr.find_nul _ name.nonzero hlen
  · unfold row
    dsimp only
    rw [Bytes.store_outside (Or.inr (by omega))]
    exact hzero (0 + name.bytes.length) (by omega)
  · intro k hk
    unfold row
    dsimp only
    rw [Nat.zero_add, Bytes.store_inside (Nat.le_add_right _ _) (by omega)]
    simp

theorem RowIs.congr (h : RowIs t i name) (hsame : ∀ k < NAME_SIZE, t'.row i k = t.row i k) :
    RowIs t' i name := by
  refine ⟨h.1, CStr.ext ?_⟩
  have hfind : CStr.find (t'.row i) 0 NAME_SIZE = CStr.find (t.row i) 0 NAME_SIZE :=
    CStr.find_congr fun k hk => hsame (0 + k) (by omega)
  exact hfind.trans (congrArg CStr.bytes h.2)

/-- The rows from `i` on are filled, and the ones before stay. -/
theorem batchinitLoop_runs (hroom : i + apps.length ≤ NAME_ROWS)
    (hlen : ∀ name ∈ apps, name.strlen < NAME_SIZE)
    (hzero : ∀ x, NAME_SIZE * i ≤ x → t.names x = 0) :
    Runs E (batchinitLoop apps.length i (pack apps)._app_names) t fun _ t' =>
    t'.app_num = t.app_num ∧
      (∀ x < NAME_SIZE * i, t'.names x = t.names x) ∧ ∀ j name, apps[j]? = some name → RowIs t'
      (i + j) name := by
  induction apps generalizing i t with
  | nil => exact ⟨rfl, fun _ _ => rfl, fun j name h => by cases h⟩
  | cons name apps ih =>
    have hname : name.bytes.length < NAME_SIZE := hlen name (List.mem_cons_self ..)
    rw [List.length_cons] at hroom
    change Runs E (batchinitLoop (apps.length + 1) i (name.bytes ++ [0] ++ (pack apps)._app_names))
      t _
    unfold batchinitLoop
    dsimp only
    rw [strlen_packed, strncpy_packed, drop_packed, Runs.bind_iff]
    unfold setName
    rw [if_pos (Or.inr (by unfold NAME_ROWS NAME_SIZE at *; omega)), Runs.modify_iff]
    have hnext : ∀ x, NAME_SIZE * (i + 1) ≤ x → t.names.store (NAME_SIZE * i) name.bytes x = 0 := by
      intro x hx
      rw [Nat.mul_succ] at hx
      rw [Bytes.store_outside (Or.inr (by omega))]
      exact hzero x (by omega)
    apply (ih (by omega) (fun a ha => hlen a (List.mem_cons_of_mem _ ha)) hnext).imp
    rintro _ t' ⟨hnum, hsame, hrows⟩
    refine ⟨hnum, fun x hx => ?_, fun j a ha => ?_⟩
    · rw [hsame x (by rw [Nat.mul_succ]; omega)]
      exact Bytes.store_outside (Or.inl hx)
    · cases j with
      | zero =>
        cases ha
        refine RowIs.congr (rowIs_store (by omega) hname fun k _ => hzero _ (Nat.le_add_right _ _))
          fun k hk => ?_
        exact hsame _ (by rw [Nat.mul_succ, Nat.add_zero]; omega)
      | succ j =>
        have := hrows j a ha
        rwa [Nat.add_assoc, Nat.add_comm 1] at this

/-- The number of names, when it is an `int`. -/
theorem app_num_pack (hint : apps.length < 2 ^ 31) :
    (BitVec.ofNat 32 (pack apps)._app_num).toInt = apps.length := by
  have hsmall : (BitVec.ofNat 32 (pack apps)._app_num).toNat = apps.length := by
    rw [BitVec.toNat_ofNat]
    unfold pack
    dsimp only
    omega
  rw [BitVec.toInt_eq_toNat_of_lt (by omega), hsmall]

theorem batchinit_runs (hroom : apps.length ≤ NAME_ROWS)
    (hlen : ∀ name ∈ apps, name.strlen < NAME_SIZE) :
    Runs E (batchinit (pack apps)) zero fun _ t => t.app_num = apps.length ∧
    ∀ i name, apps[i]? = some name → RowIs t i name := by
  have hint : apps.length < 2 ^ 31 := hroom.trans_lt (by decide)
  unfold batchinit
  rw [Runs.bind_iff, Runs.modify_iff, Runs.bind_iff, Runs.get_iff, app_num_pack hint]
  dsimp only
  rw [Int.toNat_natCast]
  apply (batchinitLoop_runs (by omega) hlen fun _ _ => rfl).imp
  rintro _ t ⟨h1, _, h3⟩
  refine ⟨h1, fun i name h => ?_⟩
  have := h3 i name h
  rwa [Nat.zero_add] at this

/-! ## get_id_by_name -/

/-- The index that a search found, or -1. -/
def idOf : Option Nat → Int
  | some i => i
  | none => -1

theorem get_id_by_nameLoop_runs (name : CStr) (hroom : i + n ≤ NAME_ROWS) :
    Runs E (get_id_by_nameLoop name n i) t fun r t' => t' = t ∧
      r = idOf ((List.range' i n).find? fun j => strncmp name.read (t.row j) NAME_SIZE == 0) := by
  induction n generalizing i with
  | zero => exact ⟨rfl, rfl⟩
  | succ n ih =>
    unfold get_id_by_nameLoop
    rw [Runs.bind_iff, Runs.get_iff, if_neg (by omega), List.range'_succ, List.find?_cons]
    by_cases heq : strncmp name.read (t.row i) NAME_SIZE = 0
    · rw [if_pos heq, Runs.pure_iff, beq_iff_eq.mpr heq]
      exact ⟨rfl, rfl⟩
    · rw [if_neg heq, beq_eq_false_iff_ne.mpr heq]
      exact ih (by omega)

/-- The comparison with a row is one with its name, when the name is shorter than the row. -/
theorem RowIs.strncmp (h : RowIs t i name') : strncmp name.read (t.row i) NAME_SIZE = 0 ↔
    name.bytes.take NAME_SIZE = name'.bytes := by
  rw [strncmp_eq_zero, CStr.find_read, ← h.2]
  rfl

theorem take_eq_of_lt {a b : List Byte} (hb : b.length < n) : a.take n = b ↔ a = b := by
  constructor
  · rintro rfl
    rw [List.length_take] at hb
    rw [List.take_of_length_le (by omega)]
  · rintro rfl
    exact List.take_of_length_le hb.le

/-- Where the name stands among the names that were packed. -/
def find (apps : List CStr) (name : CStr) : Option Nat :=
  (List.range apps.length).find? fun i => decide (apps[i]?.map CStr.bytes = some name.bytes)

theorem getElem?_eq_iff : apps[i]?.map CStr.bytes = some name.bytes ↔ apps[i]? = some name := by
  cases apps[i]? with
  | none => simp
  | some a =>
    rw [Option.map_some, Option.some_inj, Option.some_inj]
    exact ⟨CStr.ext, congrArg CStr.bytes⟩

theorem get_id_by_name_runs (hroom : apps.length ≤ NAME_ROWS)
    (hlen : ∀ name ∈ apps, name.strlen < NAME_SIZE) (hnum : t.app_num = apps.length)
    (hrows : ∀ i name, apps[i]? = some name → RowIs t i name) (name : CStr) :
    Runs E (get_id_by_name name) t fun r t' => t' = t ∧ r = idOf (find apps name) := by
  unfold get_id_by_name
  rw [Runs.bind_iff, Runs.get_iff, hnum, Int.toNat_natCast]
  apply (get_id_by_nameLoop_runs name (by omega)).imp
  rintro r t' ⟨rfl, rfl⟩
  refine ⟨rfl, ?_⟩
  unfold find
  rw [← List.range_eq_range']
  congr 1
  apply List.find?_congr
  intro i hi
  have hi := List.mem_range.mp hi
  have happ := List.getElem?_eq_getElem hi
  rw [Bool.eq_iff_iff, beq_iff_eq, decide_eq_true_iff, (hrows i _ happ).strncmp,
    take_eq_of_lt (hlen _ (List.getElem_mem hi)), happ, Option.map_some, Option.some_inj, eq_comm]

theorem find_some (h : find apps name = some i) : apps[i]? = some name := by
  have := List.find?_some h
  rw [decide_eq_true_iff] at this
  exact getElem?_eq_iff.mp this

theorem find_none (h : find apps name = none) : name ∉ apps := by
  intro hmem
  obtain ⟨i, hi, hname⟩ := List.getElem_of_mem hmem
  have := List.find?_eq_none.mp h i (List.mem_range.mpr hi)
  rw [decide_eq_true_iff, getElem?_eq_iff, List.getElem?_eq_getElem hi, hname] at this
  exact this rfl

/-- With different names, the index that is found is the only one. -/
theorem idOf_find (hnd : (apps.map CStr.bytes).Nodup) (name : CStr) :
    (∀ i : Nat, idOf (find apps name) = i ↔ apps[i]? = some name) ∧
    (idOf (find apps name) = -1 ↔ name ∉ apps) := by
  cases hfind : find apps name with
  | none =>
    have hnot := find_none hfind
    refine ⟨fun i => ⟨fun h => ?_, fun h => absurd (List.mem_of_getElem? h) hnot⟩,
      ⟨fun _ => hnot, fun _ => rfl⟩⟩
    unfold idOf at h
    dsimp only at h
    omega
  | some j =>
    have hj := find_some hfind
    refine ⟨fun i => ⟨fun h => ?_, fun h => ?_⟩,
      ⟨fun h => ?_, fun h => absurd (List.mem_of_getElem? hj) h⟩⟩
    · have hji : j = i := Int.ofNat_inj.mp h
      rwa [← hji]
    · have hlt : j < (apps.map CStr.bytes).length := by
        rw [List.length_map]
        exact (List.getElem?_eq_some_iff.mp hj).1
      have heq : (apps.map CStr.bytes)[j]? = (apps.map CStr.bytes)[i]? := by
        rw [List.getElem?_map, List.getElem?_map, hj, h]
      exact congrArg Int.ofNat ((List.getElem?_inj hlt hnd).mp heq)
    · unfold idOf at h
      dsimp only at h
      omega

/-! ## When the table is right -/

/-- The search looks at the first 100 bytes of the name. -/
theorem get_id_by_nameLoop_congr (h : ∀ k < NAME_SIZE, name.read k = name'.read k) :
    get_id_by_nameLoop name n i = get_id_by_nameLoop name' n i := by
  induction n generalizing i with
  | zero => rfl
  | succ n ih =>
    unfold get_id_by_nameLoop
    have hcmp : ∀ t : AppTable, strncmp name.read (t.row i) NAME_SIZE =
        strncmp name'.read (t.row i) NAME_SIZE :=
      fun t => strncmp_congr h fun _ _ => rfl
    simp only [hcmp, ih]

theorem get_id_by_name_congr (h : ∀ k < NAME_SIZE, name.read k = name'.read k) :
    get_id_by_name name = get_id_by_name name' := by
  unfold get_id_by_name
  simp only [get_id_by_nameLoop_congr h]

/-- A name with the same first 100 bytes that was not packed. -/
theorem exists_longer (apps : List CStr) (hlen : NAME_SIZE ≤ name.strlen) :
    ∃ name' : CStr, name' ∉ apps ∧ ∀ k < NAME_SIZE, name.read k = name'.read k := by
  -- It is longer than every name that was packed.
  have hbytes : ∀ b ∈ name.bytes ++ List.replicate ((apps.map CStr.strlen).sum + 1) (1 : Byte),
      b ≠ 0 := by
    intro b hb
    rcases List.mem_append.mp hb with hb | hb
    · exact name.nonzero b hb
    · rw [List.eq_of_mem_replicate hb]
      decide
  refine ⟨⟨_, hbytes⟩, fun hmem => ?_, fun k hk => ?_⟩
  · have hle : CStr.strlen ⟨_, hbytes⟩ ≤ (apps.map CStr.strlen).sum :=
      List.single_le_sum (fun _ _ => Nat.zero_le _) _ (List.mem_map_of_mem hmem)
    unfold CStr.strlen at hle
    rw [List.length_append, List.length_replicate] at hle
    have : (apps.map CStr.strlen).sum = (apps.map fun s => s.bytes.length).sum := rfl
    omega
  · unfold CStr.read
    dsimp only
    have hlt : k < name.bytes.length := hk.trans_le hlen
    rw [List.getElem?_append_left hlt]

theorem Right.rows (h : Right apps) : apps.length ≤ NAME_ROWS := by
  obtain ⟨t, _, hrows, _⟩ := h
  by_contra hc
  have hlt : NAME_ROWS < apps.length := by omega
  exact absurd (hrows NAME_ROWS _ (List.getElem?_eq_getElem hlt)).1 (Nat.lt_irrefl _)

theorem Right.short (h : Right apps) : ∀ name ∈ apps, name.strlen < NAME_SIZE := by
  obtain ⟨t, _, _, hid⟩ := h
  intro name hmem
  by_contra hc
  obtain ⟨name', hnot, hsame⟩ := exists_longer apps (Nat.le_of_not_lt hc)
  obtain ⟨i, hi, hname⟩ := List.getElem_of_mem hmem
  obtain ⟨r, hr, hri, _⟩ := hid name
  obtain ⟨r', hr', _, hr'0⟩ := hid name'
  rw [get_id_by_name_congr hsame, hr'] at hr
  cases hr
  -- The search gives the index of the one and -1 for the other.
  have h1 := (hri i).mpr (by rw [List.getElem?_eq_getElem hi, hname])
  have h2 := hr'0.mpr hnot
  omega

theorem right_of_fits (hnd : (apps.map CStr.bytes).Nodup) (hroom : apps.length ≤ NAME_ROWS)
    (hlen : ∀ name ∈ apps, name.strlen < NAME_SIZE) : Right apps := by
  obtain ⟨_, t, hok, hnum, hrows⟩ :=
    (batchinit_runs (E := fun _ => False) hroom hlen).exists_ok fun _ hc => hc
  refine ⟨t, hok, hrows, fun name => ?_⟩
  obtain ⟨r, t', hr, rfl, rfl⟩ :=
    (get_id_by_name_runs (E := fun _ => False) hroom hlen hnum hrows name).exists_ok fun _ hc => hc
  exact ⟨_, hr, idOf_find hnd name⟩

/-- The table is right exactly for at most 30 names of at most 99 bytes. -/
theorem table_right_iff (apps : List CStr) (hnd : (apps.map CStr.bytes).Nodup) :
    Right apps ↔ apps.length ≤ NAME_ROWS ∧ ∀ name ∈ apps, name.strlen < NAME_SIZE :=
  ⟨fun h => ⟨h.rows, h.short⟩, fun h => right_of_fits hnd h.1 h.2⟩

/-- The names `a` and `b`. -/
def twoNames : List CStr := [⟨[97], by decide⟩, ⟨[98], by decide⟩]

theorem table_right_iff_of_two_names : (twoNames.map CStr.bytes).Nodup ∧
    (Right twoNames ↔ twoNames.length ≤ NAME_ROWS ∧ ∀ name ∈ twoNames, name.strlen < NAME_SIZE) :=
  ⟨by decide, table_right_iff twoNames (by decide)⟩

/-! ## Too many names -/

/-- The write that goes behind the table. -/
def Behind (e : Stop) : Prop := e = .fault "names: behind the table"

theorem batchinitLoop_overruns (hi : i ≤ NAME_ROWS) (hmany : NAME_ROWS < i + apps.length)
    (hne : ∀ name ∈ apps, name.bytes ≠ []) :
    Runs Behind (batchinitLoop apps.length i (pack apps)._app_names) t fun _ _ => False := by
  induction apps generalizing i t with
  | nil => exact absurd hmany (by rw [List.length_nil]; omega)
  | cons name apps ih =>
    rw [List.length_cons] at hmany
    change Runs Behind (batchinitLoop (apps.length + 1) i
      (name.bytes ++ [0] ++ (pack apps)._app_names)) t _
    unfold batchinitLoop
    dsimp only
    rw [strlen_packed, strncpy_packed, drop_packed, Runs.bind_iff]
    unfold setName
    split
    · rename_i hin
      -- The name is not empty, so its row is in the table.
      have hpos := List.length_pos_of_ne_nil (hne name (List.mem_cons_self ..))
      have hrow := hin.resolve_left (hne name (List.mem_cons_self ..))
      have hlt : i < NAME_ROWS := by
        unfold NAME_SIZE NAME_ROWS at *
        omega
      rw [Runs.modify_iff]
      exact ih hlt (by omega) fun a ha => hne a (List.mem_cons_of_mem _ ha)
    · exact rfl

/-- With more names than rows, `batchinit` writes behind the table. -/
theorem batchinit_overruns (hmany : NAME_ROWS < apps.length) (hint : apps.length < 2 ^ 31)
    (hne : ∀ name ∈ apps, name.bytes ≠ []) :
    batchinit (pack apps) zero = .error (.fault "names: behind the table") := by
  have hruns : Runs Behind (batchinit (pack apps)) zero fun _ _ => False := by
    unfold batchinit
    rw [Runs.bind_iff, Runs.modify_iff, Runs.bind_iff, Runs.get_iff, app_num_pack hint]
    dsimp only
    rw [Int.toNat_natCast]
    exact batchinitLoop_overruns (Nat.zero_le _) (by omega) hne
  cases hrun : batchinit (pack apps) zero with
  | error e => exact congrArg Except.error (hruns.of_error hrun)
  | ok r => exact (hruns.of_ok hrun).elim

/-- As many names as chapter 8 has: `aa`, `ab` and so on. -/
def chapter8Names : List CStr := (List.range 39).map fun i =>
  CStr.ofBytes (Bytes.store (fun _ => 0) 0 [BitVec.ofNat 8 (97 + i / 16),
    BitVec.ofNat 8 (97 + i % 16)]) 0 3

theorem chapter_8_overruns_the_table : (chapter8Names.map CStr.bytes).Nodup ∧
    batchinit (pack chapter8Names) zero = .error (.fault "names: behind the table") ∧
    ¬ Right chapter8Names := by
  have hnd : (chapter8Names.map CStr.bytes).Nodup := by decide +kernel
  have hlen : chapter8Names.length = 39 := by
    unfold chapter8Names
    rw [List.length_map, List.length_range]
  have hne : ∀ name ∈ chapter8Names, name.bytes ≠ [] := by decide +kernel
  have hmany : NAME_ROWS < chapter8Names.length := by
    rw [hlen]
    decide
  exact ⟨hnd, batchinit_overruns hmany (by rw [hlen]; decide) hne,
    fun h => absurd h.rows (Nat.not_le_of_lt hmany)⟩

/-! ## The search of the kernel -/

/-- The names of the applications fit in the table. -/
structure Fits (lk : Link) : Prop where
  rows : lk.apps.length ≤ NAME_ROWS
  short : ∀ app ∈ lk.apps, app.name.strlen < NAME_SIZE

/-- In the table that `batchinit` fills, each name has the number that it has among the
applications. -/
def Agrees (lk : Link) : Prop :=
  ∃ t, batchinit (pack (lk.apps.map App.name)) zero = .ok ((), t) ∧
    ∀ name, get_id_by_name name t = .ok (idOf (ThuKernel.get_id_by_name lk name), t)

theorem Fits.agrees {lk : Link} (h : Fits lk) : Agrees lk := by
  obtain ⟨hroom, hlen⟩ := h
  have hroom' : (lk.apps.map App.name).length ≤ NAME_ROWS := by rwa [List.length_map]
  have hlen' : ∀ name ∈ lk.apps.map App.name, name.strlen < NAME_SIZE := by
    intro name hmem
    obtain ⟨app, happ, rfl⟩ := List.mem_map.mp hmem
    exact hlen app happ
  obtain ⟨_, t, hok, hnum, hrows⟩ :=
    (batchinit_runs (E := fun _ => False) hroom' hlen').exists_ok fun _ hc => hc
  refine ⟨t, hok, fun name => ?_⟩
  obtain ⟨r, t', hr, rfl, rfl⟩ :=
    (get_id_by_name_runs (E := fun _ => False) hroom' hlen' hnum hrows name).exists_ok fun _ hc =>
      hc
  rw [hr]
  congr 3
  unfold find ThuKernel.get_id_by_name
  rw [List.length_map]
  apply List.find?_congr
  intro i hi
  have happ := List.getElem?_eq_getElem (List.mem_range.mp hi)
  have hshort := hlen _ (List.getElem_mem (List.mem_range.mp hi))
  rw [List.getElem?_map, happ, Bool.eq_iff_iff, decide_eq_true_iff, Option.map_some,
    Option.map_some, Option.some_inj]
  dsimp only
  change _ ↔ (strncmp _ _ NAME_SIZE == 0) = true
  rw [beq_iff_eq, strncmp_eq_zero, CStr.find_read, CStr.find_read, List.take_of_length_le hshort.le,
    take_eq_of_lt hshort, eq_comm]

end AppTable

end ThuKernel
