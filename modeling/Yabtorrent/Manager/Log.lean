import Yabtorrent.Manager.Entry

/-! The download manager's log lines.

`__log` formats its format string and arguments into a buffer and hands the text to
`__FUNC_log` as a format string with no arguments; `__FUNC_log` puts `my_peerid` and a comma
before it and formats it again. `__FUNC_peerconn_log`, the log callback of every peer
connection, puts `pwp,`, the peer id and the connection's format string, unformatted, into a
buffer, drops the connection's arguments, and hands that text to `__FUNC_log` as a format
string too. So text that has been through one formatting step is read as a format string a
second time.

`vsprintf` is modelled for the conversions the manager's format strings use: `%s`, `%d`, `%lx`
and `%%`. A conversion with no argument, or with an argument of another type, is undefined
behaviour, as is one of the others and a text that overflows its buffer.

* `log_plain`: text that holds no `%` reaches the host as `my_peerid`, a comma and the text.
* `log_formats_twice`: a reason `50%%` is logged as `50%`, and a connection's message with
  an argument is undefined. -/
namespace Yabtorrent

/-- An argument of a variadic call, of the types the manager passes. -/
inductive Arg where
  | str (s : List Char)
  | int (n : Int)
  | ulong (n : Nat)
  deriving DecidableEq, Repr

/-- `vsprintf`'s text: `none` where the call is undefined. -/
def vsprintf : List Char → List Arg → Option (List Char)
  | [], _ => some []
  | '%' :: '%' :: fmt, args => ('%' :: ·) <$> vsprintf fmt args
  | '%' :: 's' :: fmt, .str s :: args => (s ++ ·) <$> vsprintf fmt args
  | '%' :: 'd' :: fmt, .int n :: args => ((toString n).toList ++ ·) <$> vsprintf fmt args
  | '%' :: 'l' :: 'x' :: fmt, .ulong n :: args => (Nat.toDigits 16 n ++ ·) <$> vsprintf fmt args
  | '%' :: _, _ => none
  | c :: fmt, args => (c :: ·) <$> vsprintf fmt args

/-- Text written into a buffer of `size` bytes: undefined when it and its NUL do not fit. -/
def intoBuffer (size : Nat) (text : Option (List Char)) : Option (List Char) :=
  text.bind fun t => if t.length < size then some t else none

/-- Text with no `%` formats to itself. -/
theorem vsprintf_plain : ∀ t : List Char, '%' ∉ t → vsprintf t [] = some t
  | [], _ => rfl
  | c :: t, h => by
    have hc : c ≠ '%' := fun e => h (e ▸ List.mem_cons_self _ _)
    have ih := vsprintf_plain t fun e => h (List.mem_cons_of_mem _ e)
    cases t <;> simp_all [vsprintf]

/-- What a call of a log function comes to: nothing, a line to the host's `log`, or
undefined behaviour. -/
inductive Logged where
  | nothing
  | line (text : List Char)
  | undefined
  deriving DecidableEq, Repr

namespace Dm
variable {σ : Type}

/-- `__FUNC_log`: `my_peerid` and a comma, then the format string formatted with its
arguments, in a buffer of 1024 bytes, to the host's `log`. A `my_peerid` that is not set is a
null pointer for `%s`. -/
def funcLog (s : Dm σ) (fmt : List Char) (args : List Arg) : Logged :=
  if !s.cb.log then .nothing
  else
    match s.cfg.get "my_peerid" with
    | none => .undefined
    | some id =>
      match intoBuffer 1024 ((vsprintf "%s,".toList [.str id.toList]).bind fun head =>
          (head ++ ·) <$> vsprintf fmt args) with
      | some buf => .line buf
      | none => .undefined

/-- `__log`: the format string formatted with its arguments in a buffer of 1024 bytes, and
that text handed to `__FUNC_log` as its format string, with no arguments. -/
def log (s : Dm σ) (fmt : List Char) (args : List Arg) : Logged :=
  if !s.cb.log then .nothing
  else
    match intoBuffer 1024 (vsprintf fmt args) with
    | some buf => funcLog s buf []
    | none => .undefined

/-- `__FUNC_peerconn_log`: `pwp,`, the peer id and the connection's format string in a
buffer of 1000 bytes, handed to `__FUNC_log` as its format string. The connection's
arguments are not read. -/
def peerconnLog (s : Dm σ) (q : Peer) (fmt : List Char) (_args : List Arg) : Logged :=
  match intoBuffer 1000 (vsprintf "pwp,%s,%s".toList [.str q.peerId.toList, .str fmt]) with
  | some buffer => funcLog s buffer []
  | none => .undefined

/-- **Text without `%` is logged as it is.** When a message formats to text that holds no
`%` and fits, `__log` hands the host `my_peerid`, a comma and that text. -/
theorem log_plain (s : Dm σ) (fmt : List Char) (args : List Arg) {t : List Char} {id : String}
    (ht : vsprintf fmt args = some t) (hp : '%' ∉ t) (hlog : s.cb.log = true)
    (hid : s.cfg.get "my_peerid" = some id) (hfit : id.length + 1 + t.length < 1024) :
    log s fmt args = .line (id.toList ++ ',' :: t) := by
  have hbuf : intoBuffer 1024 (vsprintf fmt args) = some t := by
    simp only [intoBuffer, ht, Option.some_bind, if_pos (show t.length < 1024 by omega)]
  have hline : intoBuffer 1024 ((vsprintf "%s,".toList [.str id.toList]).bind fun head =>
      (head ++ ·) <$> vsprintf t []) = some (id.toList ++ ',' :: t) := by
    rw [vsprintf_plain t hp, show vsprintf "%s,".toList [.str id.toList] = some (id.toList ++ [',']) by
      simp [vsprintf]]
    simp only [intoBuffer, Option.some_bind, Option.map_eq_map, Option.map_some', List.append_assoc,
      List.singleton_append]
    rw [if_pos (by simp only [List.length_append, List.length_cons, String.length, String.toList] at hfit ⊢; omega)]
  simp only [log, funcLog, hlog, hid, hbuf, hline, Bool.not_true, Bool.false_eq_true, if_false]

/-! ### Runs -/

/-- A host that takes log lines, with `my_peerid` set to `me`. -/
def logging : Dm Sequential :=
  run sequential new [.setCbs ⟨none, none, false, true⟩, .configSet "my_peerid" "me"]

/-- A connected peer, as `bt_dm_add_peer` creates it for 10.0.0.2:6881. -/
def connected : Peer := ⟨0, "", "10.0.0.2", 6881, some 7, Conn.new 1 2, none⟩

/-- A reason `50%%`, logged as `__FUNC_peerconn_disconnect` logs a reason, formats to `50%%`
but reaches the host as `50%`; a connection's `have,%d` with its index formats to `have,3` but
its index is dropped and `%d` read with no argument. -/
theorem log_formats_twice :
    vsprintf "disconnecting,%s".toList [.str "50%%".toList] = some "disconnecting,50%%".toList ∧
      logging.log "disconnecting,%s".toList [.str "50%%".toList] = .line "me,disconnecting,50%".toList ∧
      vsprintf "have,%d".toList [.int 3] = some "have,3".toList ∧
      logging.peerconnLog connected "have,%d".toList [.int 3] = .undefined := by
  decide

/-- A reason with no `%` reaches the host as it was formatted. -/
theorem log_plain_logging :
    logging.log "disconnecting,%s".toList [.str "timeout".toList] = .line "me,disconnecting,timeout".toList :=
  log_plain logging "disconnecting,%s".toList [.str "timeout".toList] (t := "disconnecting,timeout".toList)
    (by decide) (by decide) rfl rfl (by decide)

end Dm

end Yabtorrent
