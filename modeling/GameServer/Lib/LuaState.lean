/-
  A Lua state as a C program sees it through its stack.

  `Value` is a Lua value, `State` the stack (its top first), the global variables and the
  tables. The functions of the C API are named after it (`luaGetglobal` is `lua_getglobal`)
  and run in `Api`: they change the state, or stop the program. Indices are negative, as
  `-1` for the top. A table is its list of entries in the order in which `lua_next` meets
  them.

  The rules:
  * `run_bind_ok` and `run_bind_error` execute a body statement by statement.
  * `luaForeach_run`: the loop `while (lua_next(L, -2)) { body; lua_pop(L, 1); }` visits every
    entry of the table once, in order, and leaves the stack as it was before the first key
    was pushed; what it does to the globals is the fold of what `body` does for one entry.
-/
import Mathlib.Data.List.Nodup
import Mathlib.Data.List.TakeWhile
import Mathlib.Logic.Function.Basic

namespace Lua

/-! ## Values -/

/-- The contents of a Lua or C string. -/
abbrev Bytes := List UInt8

/-- An ASCII text as bytes. -/
def ascii (s : String) : Bytes := s.toList.map fun c => c.toNat.toUInt8

/-- What a C function reads of a string: the bytes before the first NUL. -/
def cString (s : Bytes) : Bytes := s.takeWhile (· ≠ 0)

/-- There is no NUL among the bytes. -/
def NulFree (s : Bytes) : Prop := (0 : UInt8) ∉ s

instance (s : Bytes) : Decidable (NulFree s) := inferInstanceAs (Decidable (_ ∉ _))

theorem NulFree.ne_zero {s : Bytes} (h : NulFree s) : ∀ b ∈ s, decide (b ≠ 0) = true := by
  intro b hb
  have hne : b ≠ 0 := fun h0 => h (h0 ▸ hb)
  exact decide_eq_true hne

theorem cString_eq {s : Bytes} (h : NulFree s) : cString s = s :=
  List.takeWhile_eq_self_iff.2 h.ne_zero

theorem nulFree_cString (s : Bytes) : NulFree (cString s) := by
  intro hmem
  simpa using List.mem_takeWhile_imp hmem

/-- A NUL ends the string. -/
theorem cString_append_nul {s : Bytes} (h : NulFree s) : cString (s ++ [0]) = s := by
  unfold cString
  rw [List.takeWhile_append_of_pos h.ne_zero]
  simp

/-- A float is the text it prints as, and the integer it equals, if it does. Tables and
    functions are references. -/
inductive Value where
  | nil
  | boolean (b : Bool)
  | integer (n : Int)
  | float (text : Bytes) (integral : Option Int)
  | string (s : Bytes)
  | table (ref : Nat)
  | function (ref : Nat)
  deriving DecidableEq

/-- `LUA_TNIL`, `LUA_TBOOLEAN`, .. -/
inductive LuaType where
  | nil
  | boolean
  | number
  | string
  | table
  | function
  deriving DecidableEq

def Value.type : Value → LuaType
  | .nil => .nil
  | .boolean _ => .boolean
  | .integer _ => .number
  | .float _ _ => .number
  | .string _ => .string
  | .table _ => .table
  | .function _ => .function

/-- `lua_typename` -/
def LuaType.name : LuaType → Bytes
  | .nil => ascii "nil"
  | .boolean => ascii "boolean"
  | .number => ascii "number"
  | .string => ascii "string"
  | .table => ascii "table"
  | .function => ascii "function"

/-- The text of a number. -/
def Value.numeral : Value → Option Bytes
  | .integer n => some (ascii (toString n))
  | .float text _ => some text
  | _ => none

structure State where
  stack : List Value
  globals : Bytes → Value
  tables : Nat → List (Value × Value)

/-- How a program ends before its time: `exit` with a message printed, a failed `assert`, an
    error that no protected call catches. A loop that goes on for too long is cut off. -/
inductive Stop where
  | exit (code : Int) (message : Bytes)
  | abort
  | error
  | cutOff
  deriving DecidableEq

abbrev Api := StateT State (Except Stop)

namespace State

/-- `luaL_newstate` -/
def new : State := ⟨[], fun _ => .nil, fun _ => []⟩

def push (s : State) (v : Value) : State := { s with stack := v :: s.stack }

/-- The value at a negative index. -/
def get (s : State) (idx : Int) : Value := s.stack.getD (-idx - 1).toNat .nil

def setGlobal (s : State) (name : Bytes) (v : Value) : State :=
  { s with globals := Function.update s.globals name v }

end State

/-! ## The API -/

def stop {α : Type} (why : Stop) : Api α := fun _ => .error why

/-- `assert` -/
def cAssert (b : Bool) : Api Unit := if b then pure () else stop .abort

def luaPushnil : Api Unit := fun s => .ok ((), s.push .nil)

def luaPushinteger (n : Int) : Api Unit := fun s => .ok ((), s.push (.integer n))

/-- The string is copied up to its first NUL. -/
def luaPushstring (str : Bytes) : Api Unit := fun s => .ok ((), s.push (.string (cString str)))

/-- An `int` as a float, which prints with a fraction. -/
def luaPushnumber (n : Int) : Api Unit :=
  fun s => .ok ((), s.push (.float (ascii (toString n) ++ ascii ".0") (some n)))

def luaPop (n : Nat) : Api Unit := fun s => .ok ((), { s with stack := s.stack.drop n })

def luaGetglobal (name : Bytes) : Api Unit :=
  fun s => .ok ((), s.push (s.globals (cString name)))

/-- The value is popped. -/
def luaSetglobal (name : Bytes) : Api Unit := fun s =>
  .ok ((), { s with stack := s.stack.drop 1 }.setGlobal (cString name) (s.get (-1)))

def luaType (idx : Int) : Api LuaType := fun s => .ok ((s.get idx).type, s)

def luaIsnil (idx : Int) : Api Bool := fun s => .ok (decide (s.get idx = .nil), s)

/-- 0 for `nil` and `false`, else 1. -/
def luaToboolean (idx : Int) : Api Int :=
  fun s => .ok (if s.get idx = .nil ∨ s.get idx = .boolean false then 0 else 1, s)

/-- 0 for what is no integer; `convert` is the value of a string that is a numeral. -/
def luaTointeger (convert : Bytes → Option Int) (idx : Int) : Api Int := fun s =>
  .ok (match s.get idx with
    | .integer n => n
    | .float _ integral => integral.getD 0
    | .string str => (convert str).getD 0
    | _ => 0, s)

/-- `none` is NULL. A number on the stack is replaced by its text. -/
def luaTostring (idx : Int) : Api (Option Bytes) := fun s =>
  match s.get idx with
  | .string str => .ok (some str, s)
  | v =>
    match v.numeral with
    | some text =>
      .ok (some text, { s with stack := s.stack.set (-idx - 1).toNat (.string text) })
    | none => .ok (none, s)

/-- The entry after a key, or the first one after `nil`. The outer `none`: no such key. -/
def successor (entries : List (Value × Value)) (key : Value) : Option (Option (Value × Value)) :=
  if key = .nil then some entries.head?
  else
    match entries.dropWhile fun e => e.1 ≠ key with
    | [] => none
    | _ :: later => some later.head?

/-- Replaces the key on the top by the next key and its value, or pops it. -/
def luaNext (idx : Int) : Api Bool := fun s =>
  match s.get idx with
  | .table ref =>
    match successor (s.tables ref) (s.get (-1)) with
    | none => .error .error
    | some none => .ok (false, { s with stack := s.stack.drop 1 })
    | some (some (k, v)) => .ok (true, { s with stack := v :: k :: s.stack.drop 1 })
  | _ => .error .error

/-- `while (lua_next(L, -2) != 0) { body; lua_pop(L, 1); }`, at most `fuel - 1` times round. -/
def luaForeach (body : Api Unit) : Nat → Api Unit
  | 0 => stop .cutOff
  | fuel + 1 => do
    if ← luaNext (-2) then
      body
      luaPop 1
      luaForeach body fuel

/-! ## The standard library of Lua 5.3 -/

def baseFunctions : List String :=
  ["assert", "collectgarbage", "dofile", "error", "getmetatable", "ipairs", "loadfile", "load",
    "next", "pairs", "pcall", "print", "rawequal", "rawlen", "rawget", "rawset", "select",
    "setmetatable", "tonumber", "tostring", "type", "xpcall", "require"]

def libraryTables : List String :=
  ["_G", "package", "coroutine", "table", "io", "os", "string", "math", "utf8", "debug"]

/-- The globals after `luaL_openlibs`, each function and table with a reference of its own. -/
def openlibs (name : Bytes) : Value :=
  if name = ascii "_VERSION" then .string (ascii "Lua 5.3")
  else
    match (baseFunctions.map ascii).idxOf? name, (libraryTables.map ascii).idxOf? name with
    | some i, _ => .function (i + 1)
    | none, some i => .table (i + 1)
    | none, none => .nil

/-! ## Execution -/

section Run

variable {σ ε α β : Type} {s s' : σ}

theorem run_bind_ok {m : StateT σ (Except ε) α} {f : α → StateT σ (Except ε) β} {a : α}
    (h : m s = .ok (a, s')) : (m >>= f) s = f a s' := by
  show (m s).bind _ = _
  rw [h]
  rfl

theorem run_bind_error {m : StateT σ (Except ε) α} {f : α → StateT σ (Except ε) β} {why : ε}
    (h : m s = .error why) : (m >>= f) s = .error why := by
  show (m s).bind _ = _
  rw [h]
  rfl

end Run

/-! ## Traversal of a table -/

theorem successor_nil (entries : List (Value × Value)) :
    successor entries .nil = some entries.head? := if_pos rfl

/-- After a key that occurs once comes the entry behind it. -/
theorem successor_append {done todo : List (Value × Value)} {e : Value × Value}
    (hnil : e.1 ≠ .nil) (hnew : e.1 ∉ done.map Prod.fst) :
    successor (done ++ e :: todo) e.1 = some todo.head? := by
  have hskip : (done ++ e :: todo).dropWhile (fun d => d.1 ≠ e.1) = e :: todo := by
    rw [List.dropWhile_append_of_pos]
    · simp
    · intro d hd
      have hne : d.1 ≠ e.1 := fun heq => hnew (heq ▸ List.mem_map_of_mem hd)
      simpa using hne
  unfold successor
  rw [if_neg hnil, hskip]

/-- The state in the body of a traversal of table `ref`, at the entry `e`. -/
def visiting (ref : Nat) (rest : List Value) (tables : Nat → List (Value × Value))
    (e : Value × Value) (globals : Bytes → Value) : State :=
  ⟨e.2 :: e.1 :: .table ref :: rest, globals, tables⟩

section Foreach

variable {ι : Type*} {ref : Nat} {rest : List Value} {tables : Nat → List (Value × Value)}
  {body : Api Unit} {entry : ι → Value × Value}
  {effect : (Bytes → Value) → ι → Except Stop (Bytes → Value)}

/-- The rest of a traversal. The induction is on the entries still to come; `cursor` is the
    key on the top of the stack. -/
theorem luaForeach_rest (hkeys : ((tables ref).map Prod.fst).Nodup)
    (hnil : .nil ∉ (tables ref).map Prod.fst) (todo : List ι)
    (hbody : ∀ x ∈ todo, ∀ g, body (visiting ref rest tables (entry x) g) =
      (effect g x).map fun g' => ((), visiting ref rest tables (entry x) g')) :
    ∀ (done : List (Value × Value)) (cursor : Value) (g : Bytes → Value) (fuel : Nat),
      tables ref = done ++ todo.map entry →
      successor (tables ref) cursor = some (todo.map entry).head? → todo.length < fuel →
      luaForeach body fuel ⟨cursor :: .table ref :: rest, g, tables⟩ =
        (todo.foldlM effect g).map fun g' => ((), ⟨.table ref :: rest, g', tables⟩) := by
  induction todo with
  | nil =>
    intro done cursor g fuel hentries hnext hfuel
    cases fuel with
    | zero => omega
    | succ fuel =>
      have hend : luaNext (-2) ⟨cursor :: .table ref :: rest, g, tables⟩ =
          .ok (false, ⟨.table ref :: rest, g, tables⟩) := by
        simp [luaNext, State.get, hnext]
      rw [luaForeach, run_bind_ok hend]
      rfl
  | cons x todo ih =>
    intro done cursor g fuel hentries hnext hfuel
    cases fuel with
    | zero => omega
    | succ fuel =>
      have hvisit : luaNext (-2) ⟨cursor :: .table ref :: rest, g, tables⟩ =
          .ok (true, visiting ref rest tables (entry x) g) := by
        simp [luaNext, State.get, hnext, visiting]
      have hact := hbody x List.mem_cons_self g
      rw [luaForeach, run_bind_ok hvisit, List.foldlM_cons]
      show (body >>= fun _ => luaPop 1 >>= fun _ => luaForeach body fuel)
        (visiting ref rest tables (entry x) g) = _
      cases heffect : effect g x with
      | error why =>
        rw [heffect] at hact
        rw [run_bind_error hact]
        rfl
      | ok g' =>
        rw [heffect] at hact
        have hpop : luaPop 1 (visiting ref rest tables (entry x) g') =
            .ok ((), ⟨(entry x).1 :: .table ref :: rest, g', tables⟩) := rfl
        have hkeys' := hkeys
        have hnil' := hnil
        rw [hentries, List.map_cons, List.map_append, List.map_cons] at hkeys' hnil'
        have hnew : (entry x).1 ∉ done.map Prod.fst := by
          intro hmem
          exact (List.nodup_append.1 hkeys').2.2 _ hmem _ List.mem_cons_self rfl
        have hsome : (entry x).1 ≠ .nil := by
          intro heq
          rw [heq] at hnil'
          exact hnil' (List.mem_append_right _ List.mem_cons_self)
        rw [run_bind_ok hact, run_bind_ok hpop]
        refine ih (fun y hy => hbody y (List.mem_cons_of_mem x hy)) (done ++ [entry x]) _ g' fuel
          ?_ ?_ (by simpa using hfuel)
        · rw [hentries, List.append_assoc, List.singleton_append, List.map_cons]
        · rw [hentries, List.map_cons]
          exact successor_append hsome hnew

/-- The traversal rule: if `body` does to the globals what `effect` says and leaves the rest
    of the state alone, the loop folds `effect` over the entries. -/
theorem luaForeach_run {xs : List ι} (htable : tables ref = xs.map entry)
    (hkeys : ((xs.map entry).map Prod.fst).Nodup) (hnil : .nil ∉ (xs.map entry).map Prod.fst)
    (hbody : ∀ x ∈ xs, ∀ g, body (visiting ref rest tables (entry x) g) =
      (effect g x).map fun g' => ((), visiting ref rest tables (entry x) g'))
    (g : Bytes → Value) {fuel : Nat} (hfuel : xs.length < fuel) :
    luaForeach body fuel ⟨.nil :: .table ref :: rest, g, tables⟩ =
      (xs.foldlM effect g).map fun g' => ((), ⟨.table ref :: rest, g', tables⟩) := by
  rw [← htable] at hkeys hnil
  refine luaForeach_rest hkeys hnil xs hbody [] .nil g fuel htable ?_ hfuel
  rw [htable]
  exact successor_nil _

end Foreach

end Lua
