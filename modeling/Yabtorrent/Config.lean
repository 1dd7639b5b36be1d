import Mathlib.Data.List.Basic

/-! The download manager's configuration and the C string helpers it is read with.

`bt_dm_new` fills a string-to-string configuration with its defaults (`Config.defaults`);
the manager reads values back as strings (`Config.get`) or through `atoi`
(`Config.getInt`, which is `config_get_int`). The self-check of `bt_dm_add_peer` compares
addresses with `strncmp`, modelled on character lists whose end stands for the C string's
terminating NUL. -/
namespace Yabtorrent

/-- A configuration (`config_new`): keys mapped to string values, the latest setting first. -/
structure Config where
  entries : List (String × String)

namespace Config

def get (c : Config) (key : String) : Option String := c.entries.lookup key

def set (c : Config) (key value : String) : Config :=
  ⟨(key, value) :: c.entries.filter (fun e => e.1 != key)⟩

def setIfNotSet (c : Config) (key value : String) : Config :=
  if (c.get key).isSome then c else c.set key value

end Config

/-- C's `isspace` in the C locale. -/
def isSpace (c : Char) : Bool := c.toNat = 32 || (9 ≤ c.toNat && c.toNat ≤ 13)

/-- The value of a run of decimal digits, read until the first non-digit. -/
def digitsValue : List Char → Nat → Nat
  | [], n => n
  | c :: cs, n => if c.isDigit then digitsValue cs (10 * n + (c.toNat - 48)) else n

/-- C's `atoi`: leading white space, an optional sign, then decimal digits. -/
def atoi (s : String) : Int :=
  match s.toList.dropWhile isSpace with
  | '-' :: cs => -(digitsValue cs 0 : Int)
  | '+' :: cs => digitsValue cs 0
  | cs => digitsValue cs 0

/-- C's `strncmp`: at most `n` characters, stopping at the first difference or at the end
of either string. Only whether the result is zero is ever used. -/
def strncmp : List Char → List Char → Nat → Int
  | _, _, 0 => 0
  | [], [], _ + 1 => 0
  | [], d :: _, _ + 1 => -(d.toNat : Int)
  | c :: _, [], _ + 1 => c.toNat
  | c :: cs, d :: ds, n + 1 => if c = d then strncmp cs ds n else (c.toNat : Int) - d.toNat

namespace Config

/-- `config_get_int`: `atoi` of the value; every key read so is set by `bt_dm_new`. -/
def getInt (c : Config) (key : String) : Int := atoi ((c.get key).getD "")

/-- The configuration `bt_dm_new` creates. -/
def defaults : Config :=
  [("infohash", "00000000000000000000"), ("my_ip", "127.0.0.1"), ("pwp_listen_port", "6881"),
    ("max_peer_connections", "32"), ("max_active_peers", "32"),
    ("max_pending_requests", "10"), ("npieces", "0"), ("piece_length", "0"),
    ("download_path", "."), ("max_cache_mem_bytes", "1000000"),
    ("shutdown_when_complete", "0")].foldl (fun c kv => c.setIfNotSet kv.1 kv.2)
    ((⟨[]⟩ : Config).set "default" "0")

end Config

end Yabtorrent
