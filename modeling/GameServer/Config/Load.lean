/-
  What loading a configuration does.

  The loop of `__init_config` stores the entries of the environment table as globals, and
  `config_set_int` and `config_set_string` assert that each is a new one (`initConfig_run`).
  The table's keys are distinct, so the assertions hold if and only if none of them is a
  global before. Where `L` has nothing but the settings that is so, and they can all be read
  back (`settings_read_back`). But `config_init` has opened the standard library in `L` and
  defined `Split` there: it ends if and only if no key is one of these names
  (`init_ends_iff`).
-/
import GameServer.Config.Basic
import GameServer.Lib.WriteOnce

namespace GameServer.Config

open CInt Lua WriteOnce

/-! ## Environment tables -/

/-- The values that a configuration file gives its settings. -/
inductive Setting where
  | boolean (b : Bool)
  | integer (n : Int)
  | string (s : Bytes)
  deriving DecidableEq

/-- The table that a configuration file evaluates to, in the order of `lua_next`. -/
structure Environment where
  entries : List (Bytes × Setting)
  distinct : (entries.map Prod.fst).Nodup
  nulFree : ∀ k ∈ entries.map Prod.fst, NulFree k

def Setting.toValue : Setting → Value
  | .boolean b => .boolean b
  | .integer n => .integer n
  | .string s => .string s

/-- What the global of a setting holds. -/
def Setting.kept : Setting → Value
  | .boolean b => .integer (if b then 1 else 0)
  | .integer n => .integer (i32 n)
  | .string s => .string (cString s)

/-- A setting as an entry of the table. -/
def toEntry (e : Bytes × Setting) : Value × Value := (.string e.1, e.2.toValue)

def Environment.keys (env : Environment) : List Bytes := env.entries.map Prod.fst

/-- As a Lua table. -/
def Environment.table (env : Environment) : List (Value × Value) :=
  env.entries.map toEntry

/-- The globals that the settings become. -/
def Environment.kept (env : Environment) : List (Bytes × Value) :=
  env.entries.map fun e => (e.1, e.2.kept)

theorem Environment.kept_keys (env : Environment) : env.kept.map Prod.fst = env.keys := by
  unfold Environment.kept Environment.keys
  rw [List.map_map]
  rfl

theorem Environment.table_keys (env : Environment) :
    env.table.map Prod.fst = env.keys.map .string := by
  unfold Environment.table Environment.keys
  rw [List.map_map, List.map_map]
  rfl

theorem Environment.table_nodup (env : Environment) : (env.table.map Prod.fst).Nodup := by
  rw [env.table_keys]
  exact env.distinct.map fun _ _ => Value.string.inj

theorem Environment.nil_not_key (env : Environment) : .nil ∉ env.table.map Prod.fst := by
  rw [env.table_keys]
  simp

/-! ## Single values -/

/-- A value is stored under a new name, else the assertion fails. -/
theorem configSet_run {push : Api Unit} {v : Value} (hpush : ∀ s, push s = .ok ((), s.push v))
    (key : Bytes) (s : State) :
    configSet key push s = (storeNew .nil .abort s.globals (cString key, v)).map
      fun g => ((), { s with globals := g }) := by
  have hget : luaGetglobal key s = .ok ((), s.push (s.globals (cString key))) := rfl
  have htest : luaIsnil (-1) (s.push (s.globals (cString key))) =
      .ok (decide (s.globals (cString key) = .nil), s.push (s.globals (cString key))) := rfl
  unfold configSet
  rw [run_bind_ok hget, run_bind_ok htest, storeNew]
  by_cases hfree : s.globals (cString key) = .nil
  · have hassert : cAssert (decide (s.globals (cString key) = .nil))
        (s.push (s.globals (cString key))) = .ok ((), s.push (s.globals (cString key))) := by
      rw [decide_eq_true hfree]
      rfl
    have hpop : luaPop 1 (s.push (s.globals (cString key))) = .ok ((), s) := rfl
    rw [if_pos hfree, run_bind_ok hassert, run_bind_ok hpop, run_bind_ok (hpush s)]
    rfl
  · have hassert : cAssert (decide (s.globals (cString key) = .nil))
        (s.push (s.globals (cString key))) = .error .abort := by
      rw [decide_eq_false hfree]
      rfl
    rw [if_neg hfree, run_bind_error hassert]
    rfl

theorem configSetInt_run (key : Bytes) (value : Int) (s : State) :
    configSetInt key value s =
      (storeNew .nil .abort s.globals (cString key, .integer value)).map
        fun g => ((), { s with globals := g }) :=
  configSet_run (fun _ => rfl) key s

theorem configSetString_run (key value : Bytes) (s : State) :
    configSetString key value s =
      (storeNew .nil .abort s.globals (cString key, .string (cString value))).map
        fun g => ((), { s with globals := g }) :=
  configSet_run (fun _ => rfl) key s

/-- What `config_get_int` returns for a global `v`. -/
theorem configGetInt_run (convert : Bytes → Option Int) {key : Bytes} {s : State} {v : Value}
    (hv : s.globals (cString key) = v) :
    configGetInt convert key s =
      (luaTointeger convert (-1) (s.push v)).map fun r => (i32 r.1, s) := by
  have hget : luaGetglobal key s = .ok ((), s.push v) := by rw [← hv]; rfl
  unfold configGetInt
  rw [run_bind_ok hget]
  rfl

/-- What `config_get_string` returns for a global `v`. -/
theorem configGetString_run {key : Bytes} {s : State} {v : Value}
    (hv : s.globals (cString key) = v) :
    configGetString key s =
      if v = .nil then .error .abort
      else (luaTostring (-1) (s.push v)).map
        fun r => (r.1, { r.2 with stack := r.2.stack.drop 1 }) := by
  have hget : luaGetglobal key s = .ok ((), s.push v) := by rw [← hv]; rfl
  have htest : luaIsnil (-1) (s.push v) = .ok (decide (v = .nil), s.push v) := rfl
  unfold configGetString
  rw [run_bind_ok hget, run_bind_ok htest]
  by_cases hnil : v = .nil
  · rw [if_pos hnil, decide_eq_true hnil]
    rfl
  · have hassert : cAssert (!decide (v = .nil)) (s.push v) = .ok ((), s.push v) := by
      rw [decide_eq_false hnil]
      rfl
    rw [if_neg hnil, run_bind_ok hassert]
    cases hs : luaTostring (-1) (s.push v) with
    | error why =>
      rw [run_bind_error hs]
      rfl
    | ok r =>
      rw [run_bind_ok hs]
      rfl

/-! ## The loop -/

/-- What one round does to the globals. -/
def storeSetting (globals : Bytes → Value) (e : Bytes × Setting) :
    Except Stop (Bytes → Value) := storeNew .nil .abort globals (e.1, e.2.kept)

/-- One round, at an entry of an environment table. -/
theorem initConfigEntry_run (convert : Bytes → Option Int) {e : Bytes × Setting}
    (hkey : NulFree e.1) (ref : Nat) (rest : List Value) (tables : Nat → List (Value × Value))
    (g : Bytes → Value) :
    initConfigEntry convert (visiting ref rest tables (toEntry e) g) =
      (storeSetting g e).map fun g' => ((), visiting ref rest tables (toEntry e) g') := by
  obtain ⟨key, setting⟩ := e
  have hcut : cString key = key := cString_eq hkey
  cases setting with
  | boolean b =>
    have hset : initConfigEntry convert (visiting ref rest tables (toEntry (key, .boolean b)) g) =
        configSetInt key (if b then 1 else 0)
          (visiting ref rest tables (toEntry (key, .boolean b)) g) := by
      cases b <;> rfl
    rw [hset, configSetInt_run, hcut]
    rfl
  | integer n =>
    have hset : initConfigEntry convert (visiting ref rest tables (toEntry (key, .integer n)) g) =
        configSetInt key (i32 n) (visiting ref rest tables (toEntry (key, .integer n)) g) := rfl
    rw [hset, configSetInt_run, hcut]
    rfl
  | string str =>
    have hset : initConfigEntry convert (visiting ref rest tables (toEntry (key, .string str)) g) =
        configSetString key str (visiting ref rest tables (toEntry (key, .string str)) g) := rfl
    rw [hset, configSetString_run, hcut]
    rfl

/-- `__init_config` on an environment table: the settings become globals, if none of them is
    one, and the table is gone from the stack. -/
theorem initConfig_run (convert : Bytes → Option Int) (env : Environment) {ref : Nat}
    {rest : List Value} {tables : Nat → List (Value × Value)} (htable : tables ref = env.table)
    (g : Bytes → Value) {fuel : Nat} (hfuel : env.entries.length < fuel) :
    initConfig convert fuel ⟨.table ref :: rest, g, tables⟩ =
      if ∀ k ∈ env.keys, g k = .nil then .ok ((), ⟨rest, stored g env.kept, tables⟩)
      else .error .abort := by
  have hloop : luaForeach (initConfigEntry convert) fuel ⟨.nil :: .table ref :: rest, g, tables⟩ =
      (env.entries.foldlM storeSetting g).map fun g' => ((), ⟨.table ref :: rest, g', tables⟩) :=
    luaForeach_run htable env.table_nodup env.nil_not_key
      (fun e he g => initConfigEntry_run convert
        (env.nulFree _ (List.mem_map_of_mem he)) ref rest tables g) g hfuel
  have hfold : env.entries.foldlM storeSetting g =
      if ∀ k ∈ env.keys, g k = .nil then .ok (stored g env.kept) else .error .abort := by
    have hstores : env.entries.foldlM storeSetting g =
        env.kept.foldlM (storeNew .nil .abort) g := by
      unfold Environment.kept
      rw [List.foldlM_map]
      rfl
    have hnames : (env.kept.map Prod.fst).Nodup := env.kept_keys ▸ env.distinct
    rw [hstores, storeAll_eq hnames]
    refine if_congr ?_ rfl rfl
    rw [← env.kept_keys, List.forall_mem_map]
  have hpush : luaPushnil ⟨.table ref :: rest, g, tables⟩ =
      .ok ((), ⟨.nil :: .table ref :: rest, g, tables⟩) := rfl
  unfold initConfig
  rw [run_bind_ok hpush]
  rw [hfold] at hloop
  by_cases hfree : ∀ k ∈ env.keys, g k = .nil
  · rw [if_pos hfree] at hloop ⊢
    rw [run_bind_ok hloop]
    rfl
  · rw [if_neg hfree] at hloop ⊢
    rw [run_bind_error hloop]

/-! ## `config_init` -/

/-- `config_init` runs to its end if and only if no key of the environment table is `Split`,
    which the script defines, or a global that `luaL_openlibs` defines. -/
theorem init_ends_iff (convert : Bytes → Option Int) (libs : Bytes → Value) (env : Environment)
    {fuel : Nat} (hfuel : env.entries.length < fuel) :
    (∃ s, configInit convert libs (.returns env.table) fuel .new = .ok ((), s)) ↔
      ∀ k ∈ env.keys, k ≠ ascii "Split" ∧ libs k = .nil := by
  have hcall : configInit convert libs (.returns env.table) fuel .new =
      initConfig convert fuel
        ⟨[.table 0], Function.update libs (ascii "Split") (.function 0),
          Function.update (fun _ => []) 0 env.table⟩ := rfl
  have hfree : (∀ k ∈ env.keys, Function.update libs (ascii "Split") (.function 0) k = .nil) ↔
      ∀ k ∈ env.keys, k ≠ ascii "Split" ∧ libs k = .nil := by
    refine forall₂_congr fun k _ => ?_
    by_cases hk : k = ascii "Split"
    · simp [hk]
    · simp [hk]
  rw [hcall, initConfig_run convert env (Function.update_self ..) _ hfuel, ← hfree]
  constructor
  · rintro ⟨s, hs⟩
    split at hs
    · assumption
    · cases hs
  · intro hall
    exact ⟨_, if_pos hall⟩

/-- No string is a numeral. -/
def noNumeral (_ : Bytes) : Option Int := none

/-- `MAX_ONLINE = 100` -/
def onlineEnv : Environment where
  entries := [(ascii "MAX_ONLINE", .integer 100)]
  distinct := by decide
  nulFree := by decide

theorem online_ends :
    ∃ s, configInit noNumeral openlibs (.returns onlineEnv.table) 2 .new = .ok ((), s) :=
  (init_ends_iff noNumeral openlibs onlineEnv (by decide)).2 (by decide)

/-- `print = 1` -/
def printEnv : Environment where
  entries := [(ascii "print", .integer 1)]
  distinct := by decide
  nulFree := by decide

/-- `print` is a function of the standard library. -/
theorem print_aborts :
    configInit noNumeral openlibs (.returns printEnv.table) 2 .new = .error .abort := rfl

/-! ## Reading the settings back -/

/-- A call that returns leaves as many values on the stack as it found. -/
def KeepsDepth {α : Type} (call : Api α) : Prop :=
  ∀ s a s', call s = .ok (a, s') → s'.stack.length = s.stack.length

/-- An integer fits an `int`, and a string has no NUL. -/
def Setting.Storable : Setting → Prop
  | .boolean _ => True
  | .integer n => intMin ≤ n ∧ n ≤ intMax
  | .string s => NulFree s

instance : (v : Setting) → Decidable v.Storable
  | .boolean _ => inferInstanceAs (Decidable True)
  | .integer _ => inferInstanceAs (Decidable (_ ∧ _))
  | .string s => inferInstanceAs (Decidable (NulFree s))

/-- `config_get_int` and `config_get_string` return the settings, and change nothing. -/
structure ReadsBack (convert : Bytes → Option Int) (env : Environment) (s : State) : Prop where
  boolean : ∀ k b, (k, .boolean b) ∈ env.entries →
    configGetInt convert k s = .ok (if b then 1 else 0, s)
  integer : ∀ k n, (k, .integer n) ∈ env.entries → configGetInt convert k s = .ok (n, s)
  string : ∀ k str, (k, .string str) ∈ env.entries → configGetString k s = .ok (some str, s)

theorem configSet_keepsDepth {push : Api Unit} {v : Value}
    (hpush : ∀ s, push s = .ok ((), s.push v)) (key : Bytes) : KeepsDepth (configSet key push) := by
  intro s a s' h
  rw [configSet_run hpush, storeNew] at h
  split at h <;> cases h
  rfl

theorem configGetInt_keepsDepth (convert : Bytes → Option Int) (key : Bytes) :
    KeepsDepth (configGetInt convert key) := by
  intro s a s' h
  rw [configGetInt_run convert rfl] at h
  cases h
  rfl

theorem configGetString_keepsDepth (key : Bytes) : KeepsDepth (configGetString key) := by
  intro s a s' h
  rw [configGetString_run rfl] at h
  generalize s.globals (cString key) = v at h
  cases v <;> cases h <;> rfl

/-- The settings as they were stored are read back. -/
theorem readsBack_stored (convert : Bytes → Option Int) {env : Environment}
    (hstorable : ∀ e ∈ env.entries, e.2.Storable) (rest : List Value) (g : Bytes → Value)
    (tables : Nat → List (Value × Value)) :
    ReadsBack convert env ⟨rest, stored g env.kept, tables⟩ := by
  have hnames : (env.kept.map Prod.fst).Nodup := env.kept_keys ▸ env.distinct
  have hat : ∀ k v, (k, v) ∈ env.entries → stored g env.kept (cString k) = v.kept := by
    intro k v hkv
    have hkey : cString k = k := cString_eq (env.nulFree k (List.mem_map_of_mem hkv))
    have hmem : (k, v.kept) ∈ env.kept := List.mem_map_of_mem (f := fun e => (e.1, e.2.kept)) hkv
    rw [hkey]
    exact stored_mem hnames hmem
  refine ⟨fun k b hk => ?_, fun k n hk => ?_, fun k str hk => ?_⟩
  · rw [configGetInt_run convert (hat k _ hk)]
    cases b <;> rfl
  · obtain ⟨hlo, hhi⟩ : intMin ≤ n ∧ n ≤ intMax := hstorable _ hk
    rw [configGetInt_run convert (hat k _ hk), Setting.kept, i32_eq hlo hhi]
    show Except.ok (i32 n, _) = _
    rw [i32_eq hlo hhi]
  · have hstr : cString str = str := cString_eq (hstorable (k, .string str) hk)
    rw [configGetString_run (hat k _ hk), Setting.kept, hstr]
    rfl

/-- After `__init_config` the stack is as it was before the table was pushed, the settings
    are read back by `config_get_int` and `config_get_string`, and all other globals are
    unchanged; and no call of the four functions changes the depth of the stack. -/
theorem settings_read_back (convert : Bytes → Option Int) {env : Environment}
    (hstorable : ∀ e ∈ env.entries, e.2.Storable) {s : State} {ref : Nat} {rest : List Value}
    (hstack : s.stack = .table ref :: rest) (htable : s.tables ref = env.table)
    (hfree : ∀ k ∈ env.keys, s.globals k = .nil) {fuel : Nat}
    (hfuel : env.entries.length < fuel) :
    (∃ s', initConfig convert fuel s = .ok ((), s') ∧ s'.stack = rest ∧
        ReadsBack convert env s' ∧ ∀ name, name ∉ env.keys → s'.globals name = s.globals name) ∧
      ∀ key, KeepsDepth (configGetInt convert key) ∧ KeepsDepth (configGetString key) ∧
        (∀ n, KeepsDepth (configSetInt key n)) ∧ ∀ str, KeepsDepth (configSetString key str) := by
  obtain ⟨stack, g, tables⟩ := s
  obtain rfl : stack = .table ref :: rest := hstack
  constructor
  · refine ⟨⟨rest, stored g env.kept, tables⟩, ?_, rfl, readsBack_stored convert hstorable _ _ _,
      fun name hname => ?_⟩
    · rw [initConfig_run convert env htable g hfuel, if_pos hfree]
    · rw [← env.kept_keys] at hname
      exact stored_other hname
  · exact fun key => ⟨configGetInt_keepsDepth convert key, configGetString_keepsDepth key,
      fun n => configSet_keepsDepth (fun _ => rfl) key,
      fun str => configSet_keepsDepth (fun _ => rfl) key⟩

/-- A state with the table of `MAX_ONLINE = 100`, `DEBUG = true` and `GATED_IP = "127.0.0.1"`
    on its stack. -/
def serverEnv : Environment where
  entries := [(ascii "DEBUG", .boolean true), (ascii "MAX_ONLINE", .integer 100),
    (ascii "GATED_IP", .string (ascii "127.0.0.1"))]
  distinct := by decide
  nulFree := by decide

theorem server_reads_back :
    (∃ s', initConfig noNumeral 4 ⟨[.table 0], openlibs, fun _ => serverEnv.table⟩ = .ok ((), s') ∧
        s'.stack = [] ∧ ReadsBack noNumeral serverEnv s' ∧
        ∀ name, name ∉ serverEnv.keys → s'.globals name = openlibs name) ∧
      ∀ key, KeepsDepth (configGetInt noNumeral key) ∧ KeepsDepth (configGetString key) ∧
        (∀ n, KeepsDepth (configSetInt key n)) ∧ ∀ str, KeepsDepth (configSetString key str) := by
  exact settings_read_back (s := ⟨[.table 0], openlibs, fun _ => serverEnv.table⟩) noNumeral
    (by decide) rfl rfl (by decide) (by decide)

end GameServer.Config
