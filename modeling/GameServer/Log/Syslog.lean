/-
  The log functions of `src/log.c`: `log_error`, `log_debug` and `log_info`.

  Each formats its message into an array of 1024 bytes with `vsnprintf` and passes the array
  to `syslog` as the format, without arguments: the message is expanded a second time. So what
  is logged is the text of the format, cut to 1023 bytes, if and only if no `%` is left in it
  and `vsnprintf` does not fail (`formatted_once_iff`). A `%%` leaves a `%`, and so may a
  string argument, unless the text is cut before it.
-/
import GameServer.Lib.CInt
import GameServer.Lib.LuaState
import GameServer.Lib.Printf

namespace GameServer.Log

open CInt Lua Printf

/-- `LOG_ERR`, `LOG_INFO` and `LOG_DEBUG`. -/
inductive Priority where
  | err
  | info
  | debug
  deriving DecidableEq

/-- A message in the system log. -/
structure Record where
  priority : Priority
  text : Bytes
  deriving DecidableEq

/-- `sizeof(buf)` -/
def sizeofBuf : Nat := 1024

/-- The length of the text, or an error if it is no `int`. -/
def lengthOrError (text : Bytes) : Int := if (text.length : Int) ≤ intMax then text.length else -1

/-- `vsnprintf(buf, size, format, arg)`: what it returns, and the bytes that it writes. -/
def vsnprintf (size : Nat) (format : CStr) (arg : List Arg) : Option (Int × Bytes) :=
  (expand format.bytes arg).map fun text => (lengthOrError text, text.take (size - 1) ++ [0])

/-- `syslog(priority, format, ..)`; `none` as for `expand`. -/
def syslog (priority : Priority) (format : CStr) (args : List Arg) : Option Record :=
  (expand format.bytes args).map fun text => ⟨priority, text⟩

/-- The string in an array. -/
def contents (buf : Bytes) : CStr := ⟨cString buf, nulFree_cString buf⟩

/-- The three functions, which differ in the priority and in the message for a failure. -/
def logAt (priority : Priority) (failure : CStr) (format : CStr) (arg : List Arg) :
    Option Record := do
  let (n, buf) ← vsnprintf sizeofBuf format arg
  if n < 0 then syslog .err failure []
  else syslog priority (contents buf) []

def logError : CStr → List Arg → Option Record :=
  logAt .err ⟨ascii "syslog_err vsnprintf error!!!\n", by decide⟩

def logDebug : CStr → List Arg → Option Record :=
  logAt .debug ⟨ascii "syslog_debug vsnprintf error!!!\n", by decide⟩

def logInfo : CStr → List Arg → Option Record :=
  logAt .info ⟨ascii "syslog_info vsnprintf error!!!\n", by decide⟩

inductive Logger where
  | error
  | debug
  | info

def Logger.log : Logger → CStr → List Arg → Option Record
  | error => logError
  | debug => logDebug
  | info => logInfo

/-- What is logged is the text of the format with its arguments, cut to fit the array. -/
def FormattedOnce (logger : Logger) (items : List Item) : Prop :=
  (logger.log (format items) (args items)).map Record.text =
    some ((text items).bytes.take (sizeofBuf - 1))

/-! ## The second expansion -/

section LogAt

variable (priority : Priority) (failure : CStr) (items : List Item)

theorem syslog_text (format : CStr) :
    (syslog priority format []).map Record.text = expand format.bytes [] := by
  unfold syslog
  rw [Option.map_map]
  exact Option.map_id_apply

theorem vsnprintf_format (size : Nat) :
    vsnprintf size (format items) (args items) =
      some (lengthOrError (text items).bytes, (text items).bytes.take (size - 1) ++ [0]) := by
  unfold vsnprintf
  rw [expand_format]
  rfl

/-- The array holds the text, cut to fit. -/
theorem contents_text (room : Nat) :
    (contents ((text items).bytes.take room ++ [0])).bytes = (text items).bytes.take room :=
  cString_append_nul fun hmem => (text items).nulFree (List.mem_of_mem_take hmem)

theorem logAt_fits (hfits : ((text items).bytes.length : Int) ≤ intMax) :
    (logAt priority failure (format items) (args items)).map Record.text =
      expand ((text items).bytes.take (sizeofBuf - 1)) [] := by
  have hlog : logAt priority failure (format items) (args items) =
      syslog priority (contents ((text items).bytes.take (sizeofBuf - 1) ++ [0])) [] := by
    have hn : ¬ lengthOrError (text items).bytes < 0 := by
      unfold lengthOrError
      rw [if_pos hfits]
      omega
    unfold logAt
    rw [vsnprintf_format]
    exact if_neg hn
  rw [hlog, syslog_text, contents_text]

/-- The length of the text does not fit an `int`. -/
theorem logAt_fails (hlong : ¬ ((text items).bytes.length : Int) ≤ intMax) :
    (logAt priority failure (format items) (args items)).map Record.text =
      expand failure.bytes [] := by
  have hlog : logAt priority failure (format items) (args items) = syslog .err failure [] := by
    have hn : lengthOrError (text items).bytes < 0 := by
      unfold lengthOrError
      rw [if_neg hlong]
      decide
    unfold logAt
    rw [vsnprintf_format]
    exact if_pos hn
  rw [hlog, syslog_text]

theorem logAt_once_iff (hshort : failure.bytes.length < sizeofBuf - 1) :
    (logAt priority failure (format items) (args items)).map Record.text =
        some ((text items).bytes.take (sizeofBuf - 1)) ↔
      ¬ BringsPercent (sizeofBuf - 1) items ∧ ((text items).bytes.length : Int) ≤ intMax := by
  by_cases hfits : ((text items).bytes.length : Int) ≤ intMax
  · rw [logAt_fits priority failure items hfits, expand_self_iff, bringsPercent_iff]
    exact (and_iff_left hfits).symm
  · rw [logAt_fails priority failure items hfits]
    refine iff_of_false (fun hsame => ?_) fun hboth => hfits hboth.2
    have hle := (expand_nil_length failure.bytes hsame).1
    have hfull : ((text items).bytes.take (sizeofBuf - 1)).length = sizeofBuf - 1 := by
      rw [List.length_take]
      unfold intMax at hfits
      unfold sizeofBuf
      omega
    omega

end LogAt

/-- For every format with matching arguments, and each of the functions: what is logged is
    their text, cut to 1023 bytes, if and only if no `%%` and no `%` of a string argument
    falls within these bytes, and the length of the whole text fits an `int`. -/
theorem formatted_once_iff (logger : Logger) (items : List Item) :
    FormattedOnce logger items ↔
      ¬ BringsPercent (sizeofBuf - 1) items ∧ ((text items).bytes.length : Int) ≤ intMax := by
  cases logger with
  | error => exact logAt_once_iff _ _ items (by decide)
  | debug => exact logAt_once_iff _ _ items (by decide)
  | info => exact logAt_once_iff _ _ items (by decide)

example : logInfo ⟨ascii "a%%%%b", by decide⟩ [] = some ⟨.info, ascii "a%b"⟩ := by decide

/-- `log_info("%s", "100%d")` -/
def percentArgument : List Item := [.string ⟨ascii "100%d", by decide⟩]

/-- `syslog` fetches an argument that was not passed. -/
theorem argument_expanded :
    logInfo ⟨ascii "%s", by decide⟩ [.str ⟨ascii "100%d", by decide⟩] = none ∧
      ¬ FormattedOnce .info percentArgument := by
  have hnone : logInfo ⟨ascii "%s", by decide⟩ [.str ⟨ascii "100%d", by decide⟩] = none := by
    decide
  refine ⟨hnone, fun honce => ?_⟩
  have hsome : (logInfo ⟨ascii "%s", by decide⟩ [.str ⟨ascii "100%d", by decide⟩]).map Record.text =
      some (ascii "100%d") := honce
  rw [hnone] at hsome
  cases hsome

end GameServer.Log
