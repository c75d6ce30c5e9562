/-
  The configuration of `src/config.c`.

  `config_init` evaluates the file `config.ini` with a Lua script and stores each entry of
  the table it gets as a global variable of the Lua state, from which `config_get_int` and
  `config_get_string` read it. The functions are those of the source, statement by
  statement, in the Lua API of `Lib/LuaState.lean`.

  What the script returns for a configuration file is part of the input (`Script`); of what
  it does to the state only its global function is kept. `convert` is Lua's reading of a
  string as a number.
-/
import GameServer.Lib.CInt
import GameServer.Lib.LuaState

namespace GameServer.Config

open CInt Lua

/-- `config_file` -/
def configFile : Bytes := ascii "./config.ini"

/-! ## Single values -/

/-- `config_set_int` and `config_set_string`, which differ in the value they push. -/
def configSet (key : Bytes) (push : Api Unit) : Api Unit := do
  luaGetglobal key
  cAssert (← luaIsnil (-1))
  luaPop 1
  push
  luaSetglobal key

/-- `config_set_int` -/
def configSetInt (key : Bytes) (value : Int) : Api Unit := configSet key (luaPushinteger value)

/-- `config_set_string` -/
def configSetString (key value : Bytes) : Api Unit := configSet key (luaPushstring value)

/-- `config_get_string` -/
def configGetString (key : Bytes) : Api (Option Bytes) := do
  luaGetglobal key
  cAssert (!(← luaIsnil (-1)))
  let result ← luaTostring (-1)
  luaPop 1
  return result

/-- `config_get_int`. It does not look whether there is a value. -/
def configGetInt (convert : Bytes → Option Int) (key : Bytes) : Api Int := do
  luaGetglobal key
  let result ← luaTointeger convert (-1)
  luaPop 1
  return i32 result

/-! ## Loading -/

/-- The body of the loop of `__init_config`. The `int` parameter of `config_set_int` takes
    the low 32 bits of an integer. -/
def initConfigEntry (convert : Bytes → Option Int) : Api Unit := do
  let keyt ← luaType (-2)
  if keyt ≠ .string then
    stop (.exit 1 (ascii "Invalid config table\n"))
  else
    let key := (← luaTostring (-2)).getD []
    let type ← luaType (-1)
    if type = .boolean then
      let b ← luaToboolean (-1)
      configSetInt key b
    else if type = .number then
      let value ← luaTointeger convert (-1)
      configSetInt key (i32 value)
    else
      match ← luaTostring (-1) with
      | none => stop (.exit 1 (ascii "Invalid config table key = " ++ cString key ++ ascii "\n"))
      | some value => configSetString key value

/-- `__init_config` -/
def initConfig (convert : Bytes → Option Int) (fuel : Nat) : Api Unit := do
  luaPushnil
  luaForeach (initConfigEntry convert) fuel
  luaPop 1

/-- What becomes of `load_config.lua` when it is loaded and called. -/
inductive Script where
  | unreadable
  | fails (errno : Int)
  | returns (env : List (Value × Value))

/-- `luaL_openlibs` -/
def luaOpenlibs (libs : Bytes → Value) : Api Unit := fun s => .ok ((), { s with globals := libs })

/-- `luaL_loadfile`: the script as a function, unless it cannot be read. -/
def luaLoadfile : Script → Api Int
  | .unreadable => fun s => .ok (1, s)
  | _ => fun s => .ok (0, s.push (.function 0))

/-- `lua_pcall(L, 1, 1, 0)` on that function and its argument: it defines `Split` and returns
    a table, or fails. -/
def luaPcall : Script → Api Int
  | .returns env => fun s => .ok (0,
      { stack := .table 0 :: s.stack.drop 2
        globals := Function.update s.globals (ascii "Split") (.function 0)
        tables := Function.update s.tables 0 env })
  | .fails errno => fun s => .ok (errno, { s with stack := .nil :: s.stack.drop 2 })
  | .unreadable => stop .error

/-- `config_init`, from a new state. -/
def configInit (convert : Bytes → Option Int) (libs : Bytes → Value) (script : Script)
    (fuel : Nat) : Api Unit := do
  luaOpenlibs libs
  if (← luaLoadfile script) ≠ 0 then
    stop (.exit 1 (ascii "loadstring error\n"))
  else
    luaPushstring configFile
    let res ← luaPcall script
    if res ≠ 0 then
      stop (.exit 1 (ascii "lua_pcall error, errno = " ++ ascii (toString res) ++ ascii "\n"))
    else initConfig convert fuel

end GameServer.Config
