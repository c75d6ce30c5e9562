/-
  Calls from C into the game scripts: `do_call_script_func` of `src/vm.c`.

  The loop over the format pushes the arguments and counts them (`pushArgs_run`). Below them
  should be the function to call, but what is pushed first is the string `func`, the
  function's name, and not the global variable of that name. `lua_pcall` tries to call the
  string: so the script is never called with its arguments, whatever the format
  (`never_calls_script`).

  The script functions are a parameter: `run f args` is what a call of function `f` does to
  the Lua state, and the error that it raises, if it does. A value that is not a function may
  have a function in the `__call` field of its metatable, which is called in its place with
  the value in front of the arguments.
-/
import GameServer.Lib.LuaState

namespace GameServer.Vm

open Lua

/-- An argument of `call_script_func` behind the format. -/
inductive Arg where
  | int (n : Int)
  | str (s : Bytes)
  deriving DecidableEq

/-- The letters of a format, `i` and `s`. -/
def fmtInt : UInt8 := 105
def fmtString : UInt8 := 115

/-- The letter that fetches an argument of this type. -/
def Arg.letter : Arg → UInt8
  | .int _ => fmtInt
  | .str _ => fmtString

/-- What the script gets: a number, or a string up to its first NUL. -/
def Arg.value : Arg → Value
  | .int n => .float (ascii (toString n) ++ ascii ".0") (some n)
  | .str s => .string (cString s)

/-- The behaviour of the script functions. -/
abbrev Functions := Nat → List Value → State → State × Option Value

/-- The Lua state, the `__call` functions, and the calls made by `lua_pcall`, each a function
    with its arguments. -/
structure Machine where
  lua : State
  callTM : Value → Option Nat
  calls : List (Nat × List Value)

/-- The program ends, or fetches an argument that is not there. -/
inductive Halt where
  | stop (why : Stop)
  | undefined
  deriving DecidableEq

abbrev Program := StateT Machine (Except Halt)

def halt {α : Type} (why : Halt) : Program α := fun _ => .error why

/-- A function of the Lua API. -/
def api {α : Type} (m : Api α) : Program α := fun v =>
  match m v.lua with
  | .ok (a, s) => .ok (a, { v with lua := s })
  | .error why => .error (.stop why)

/-- The function that a call of `func` runs, and its arguments. -/
def Machine.callee (v : Machine) (func : Value) (args : List Value) : Option (Nat × List Value) :=
  match func with
  | .function f => some (f, args)
  | _ => (v.callTM func).map fun f => (f, func :: args)

/-- `LUA_ERRRUN` -/
def luaErrrun : Int := 2

/-- `lua_pcall(L, nargs, 0, 0)`: the status, with an error message on the stack unless it is
    `LUA_OK`. -/
def luaPcall (run : Functions) (nargs : Nat) : Program Int := fun v =>
  let args := (v.lua.stack.take nargs).reverse
  let func := v.lua.stack.getD nargs .nil
  let rest := v.lua.stack.drop (nargs + 1)
  match v.callee func args with
  | none =>
    let message := ascii "attempt to call a " ++ func.type.name ++ ascii " value"
    .ok (luaErrrun, { v with lua := { v.lua with stack := .string message :: rest } })
  | some (f, args) =>
    let calls := v.calls ++ [(f, args)]
    match run f args v.lua with
    | (s, none) => .ok (0, { v with lua := { s with stack := rest }, calls := calls })
    | (s, some e) =>
      .ok (luaErrrun, { v with lua := { s with stack := e :: rest }, calls := calls })

/-- The loop over `fmt`. A letter that is neither `i` nor `s` fetches no argument. -/
def pushArgs : Bytes → List Arg → Nat → Program Nat
  | [], _, argc => pure argc
  | c :: fmt, args, argc =>
    if c = fmtInt then
      match args with
      | .int n :: args => do
        api (luaPushnumber n)
        pushArgs fmt args (argc + 1)
      | _ => halt .undefined
    else if c = fmtString then
      match args with
      | .str s :: args => do
        api (luaPushstring s)
        pushArgs fmt args (argc + 1)
      | _ => halt .undefined
    else pushArgs fmt args argc

/-- `do_call_script_func`, which does not use its first parameter. -/
def doCallScriptFunc (run : Functions) (_file func fmt : Bytes) (args : List Arg) :
    Program Unit := do
  api (luaPushstring func)
  let argc ← pushArgs fmt args 0
  let res ← luaPcall run argc
  if res ≠ 0 then
    halt (.stop (.exit 1 (ascii "lua_pcall error, errno = " ++ ascii (toString res) ++ ascii "\n")))

/-- `call_script_func` -/
def callScriptFunc (run : Functions) (file func fmt : Bytes) (args : List Arg) : Program Unit :=
  doCallScriptFunc run file func fmt args

/-- `do_call_script_func` returns, it has called the global function `func`, once and with
    these arguments, and the stack is as deep as before. -/
def CallsScript (run : Functions) (file func : Bytes) (args : List Arg) (v : Machine) : Prop :=
  ∃ f v', v.lua.globals (cString func) = .function f ∧
    doCallScriptFunc run file func (args.map Arg.letter) args v = .ok ((), v') ∧
    v'.calls = v.calls ++ [(f, args.map Arg.value)] ∧
    v'.lua.stack.length = v.lua.stack.length

/-! ## The arguments -/

def Machine.push (v : Machine) (values : List Value) : Machine :=
  { v with lua := { v.lua with stack := values.reverse ++ v.lua.stack } }

theorem Machine.push_push (v : Machine) (a : Value) (values : List Value) :
    (v.push [a]).push values = v.push (a :: values) := by
  simp [Machine.push]

theorem push_int (n : Int) (v : Machine) :
    api (luaPushnumber n) v = .ok ((), v.push [(Arg.int n).value]) := rfl

theorem push_str (s : Bytes) (v : Machine) :
    api (luaPushstring s) v = .ok ((), v.push [(Arg.str s).value]) := rfl

/-- The loop pushes the arguments that match its format, in order, and counts them. -/
theorem pushArgs_run (args : List Arg) (argc : Nat) (v : Machine) :
    pushArgs (args.map Arg.letter) args argc v =
      .ok (argc + args.length, v.push (args.map Arg.value)) := by
  induction args generalizing argc v with
  | nil => rfl
  | cons a args ih =>
    have hlen : argc + (a :: args).length = argc + 1 + args.length := by
      rw [List.length_cons]
      omega
    rw [hlen, List.map_cons, List.map_cons, ← v.push_push]
    cases a with
    | int n =>
      show (api (luaPushnumber n) >>= fun _ => pushArgs (args.map Arg.letter) args (argc + 1)) v = _
      rw [run_bind_ok (push_int n v), ih]
    | str s =>
      show (api (luaPushstring s) >>= fun _ => pushArgs (args.map Arg.letter) args (argc + 1)) v = _
      rw [run_bind_ok (push_str s v), ih]

/-- The stack at `lua_pcall`: the arguments, and the name of the function below them. -/
theorem doCallScriptFunc_eq (run : Functions) (file func : Bytes) (args : List Arg) (v : Machine) :
    doCallScriptFunc run file func (args.map Arg.letter) args v =
      (luaPcall run args.length >>= fun res =>
        if res ≠ 0 then
          halt (.stop (.exit 1
            (ascii "lua_pcall error, errno = " ++ ascii (toString res) ++ ascii "\n")))
        else pure ())
        (v.push (.string (cString func) :: args.map Arg.value)) := by
  unfold doCallScriptFunc
  rw [run_bind_ok (push_str func v), run_bind_ok (pushArgs_run args 0 _), Machine.push_push,
    Nat.zero_add]
  rfl

/-! ## The call -/

/-- `lua_pcall` calls at most one function, which it finds below the arguments. -/
theorem luaPcall_pushed (run : Functions) (func : Value) (args : List Value) (v : Machine) :
    ∃ res v', luaPcall run args.length (v.push (func :: args)) = .ok (res, v') ∧
      v'.calls = v.calls ++ (v.callee func args).toList := by
  have hstack : (v.push (func :: args)).lua.stack = args.reverse ++ func :: v.lua.stack := by
    simp [Machine.push]
  have hargs : ((v.push (func :: args)).lua.stack.take args.length).reverse = args := by
    rw [hstack, ← args.length_reverse, List.take_left, List.reverse_reverse]
  have hfunc : (v.push (func :: args)).lua.stack.getD args.length .nil = func := by
    rw [hstack, ← args.length_reverse, List.getD_eq_getElem?_getD,
      List.getElem?_append_right le_rfl]
    simp
  have hcallee : (v.push (func :: args)).callee func args = v.callee func args := rfl
  unfold luaPcall
  simp only [hargs, hfunc, hcallee]
  cases hc : v.callee func args with
  | none => exact ⟨_, _, rfl, by simp [Machine.push]⟩
  | some call =>
    obtain ⟨f, args'⟩ := call
    simp only
    split <;> exact ⟨_, _, rfl, rfl⟩

/-- A function that is called for the name gets it as its first argument. -/
theorem callee_name (v : Machine) (f : Nat) (name : Bytes) (args : List Value) :
    v.callee (.string name) args ≠ some (f, args) := by
  unfold Machine.callee
  intro heq
  obtain ⟨h, -, hcall⟩ := Option.map_eq_some_iff.1 heq
  have hlen := congrArg (fun call => call.2.length) hcall
  simp at hlen

/-- For every state, every name and all arguments: the global function of that name is not
    called with these arguments. -/
theorem never_calls_script (run : Functions) (file func : Bytes) (args : List Arg)
    (v : Machine) : ¬ CallsScript run file func args v := by
  rintro ⟨f, v', -, hrun, hcalls, -⟩
  obtain ⟨res, w, hpcall, hmade⟩ := luaPcall_pushed run (.string (cString func))
    (args.map Arg.value) v
  rw [List.length_map] at hpcall
  rw [doCallScriptFunc_eq, run_bind_ok hpcall] at hrun
  by_cases hres : res = 0
  · rw [if_neg (not_not.2 hres)] at hrun
    obtain rfl : w = v' := by
      have hsame : (Except.ok ((), w) : Except Halt (Unit × Machine)) = .ok ((), v') := hrun
      simpa using hsame
    have hone := List.append_cancel_left (hmade.symm.trans hcalls)
    exact callee_name v f _ _ (Option.toList_eq_singleton_iff.1 hone)
  · rw [if_pos hres] at hrun
    cases hrun

/-- A state with a global function `f` that returns, and no other. -/
def oneFunction : Machine :=
  ⟨State.new.setGlobal (ascii "f") (.function 7), fun _ => none, []⟩

/-- The call `call_script_func(file, "f", "is", 5, "x")`. -/
def callF : Except Halt (Unit × Machine) :=
  callScriptFunc (fun _ _ s => (s, none)) [] (ascii "f") (ascii "is")
    [.int 5, .str (ascii "x")] oneFunction

/-- It does not reach the function: the program exits. -/
theorem string_not_called :
    oneFunction.lua.globals (ascii "f") = .function 7 ∧
      callF = .error (.stop (.exit 1 (ascii "lua_pcall error, errno = 2\n"))) ∧
      ¬ CallsScript (fun _ _ s => (s, none)) [] (ascii "f") [.int 5, .str (ascii "x")]
        oneFunction := by
  have hexits : callF = .error (.stop (.exit 1 (ascii "lua_pcall error, errno = 2\n"))) := rfl
  refine ⟨by decide, hexits, ?_⟩
  rintro ⟨f, v', -, hrun, -⟩
  have hreturns : callF = .ok ((), v') := hrun
  rw [hexits] at hreturns
  cases hreturns

end GameServer.Vm
