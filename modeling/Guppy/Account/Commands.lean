import Guppy.Account.Crypt
import Guppy.Account.Text
import Guppy.Archive.Ar
import Guppy.Pkg.Control

set_option autoImplicit false

/-! # The account commands

`useradd` of `src/cmd_useradd.c` and `passwd` of `src/cmd_passwd.c`. Both first settle what they are going to enter: the
arguments or their defaults, and what the account files hold (`useraddJob`, `passwdJob`). Then they format the lines in
fixed buffers and write the files.
-/

namespace Guppy.Account

open Vfs (Text)
open Pkg (ascii)
open Digits (numeral)
open Archive.Ar (strtoull)

/-! ## The target -/

/-- The account files, by the names that the commands give them. -/
inductive AccountFile
  | passwd | shadow | group | gshadow
  deriving DecidableEq

def AccountFile.rel : AccountFile → Text
  | .passwd => ascii "etc/passwd"
  | .shadow => ascii "etc/shadow"
  | .group => ascii "etc/group"
  | .gshadow => ascii "etc/gshadow"

def AccountFile.mode : AccountFile → Nat
  | .passwd | .group => 0o644
  | .shadow | .gshadow => 0o640

/-- What the file operations return on a target: `account_vfs_mkdir_p`, `account_vfs_read_all`, `account_vfs_write_all`
and `vfs_chown`. -/
structure Target where
  mkdirP : Text → Nat → Bool
  readAll : Text → Option Text
  writeAll : Text → Text → Nat → Bool
  chown : Text → UInt32 → UInt32 → Bool

/-- What a command returns, and the texts that it has written. -/
structure Outcome where
  rc : Nat
  writes : List (AccountFile × Text)
  deriving DecidableEq

/-- `snprintf` into a buffer, without a look at what it returns -/
def snprintf (cap : Nat) (t : Text) : Text := t.take (cap - 1)

/-- `account_join_path` -/
def accountJoinPath (cap : Nat) (root suffix : Text) : Option Text :=
  let p := root ++ (if root.getLast? = some 47 then [] else [47]) ++ if suffix.head? = some 47 then suffix.drop 1 else suffix
  if p.length < cap then some p else none

/-- The paths of the account files fit their buffers. -/
def pathsFit (root : Text) : Bool :=
  [AccountFile.passwd, .shadow, .group, .gshadow].all fun f => (accountJoinPath 512 root f.rel).isSome

/-- A file that is read when the command starts. -/
def readAccount (t : Target) (root : Text) (f : AccountFile) : Option Text :=
  (accountJoinPath 512 root f.rel).bind t.readAll

/-- The writes of a command, up to one that fails: `write_account_file` for each. -/
def writeAccounts (t : Target) (root : Text) : List (AccountFile × Text) → List (AccountFile × Text) × Bool
  | [] => ([], true)
  | (f, text) :: l =>
      match accountJoinPath 512 root f.rel with
      | none => ([], false)
      | some path =>
          if t.writeAll path text f.mode = false then ([], false)
          else ((f, text) :: (writeAccounts t root l).1, (writeAccounts t root l).2)

/-- `"%u"` -/
def unsigned (v : UInt32) : Text := numeral 10 v.toNat

/-- `"%ld"` -/
def signed (v : Int) : Text := (if v < 0 then [45] else []) ++ numeral 10 v.natAbs

/-- The days since the epoch. -/
def daysOf (now : Int64) : Int := now.toInt.tdiv 86400

/-! ## Numbers -/

/-- `parse_u32` -/
def parseU32 (s : Text) : Option UInt32 :=
  if s = [] then none
  else
    let r := strtoull s
    if r.2 ≠ [] ∨ r.1 > 0xFFFFFFFF then none else some (UInt32.ofNat r.1)

/-- The text behind the next colon, which may be on a later line. -/
def afterColon (p : Text) : Option Text :=
  if 58 ∈ p then some ((p.dropWhile fun c => decide (c ≠ 58)).drop 1) else none

/-- The text between the second and the third colon. -/
def thirdField (p : Text) : Option Text := do
  let a ← afterColon p
  let b ← afterColon a
  if 58 ∈ b then some (b.takeWhile fun c => decide (c ≠ 58)) else none

/-- The number in a field, when it counts for the largest one so far. -/
def largerUid (startUid : UInt32) (num : Text) (max : UInt32) : UInt32 :=
  if num.length < 24 then
    let r := strtoull num
    if r.2 = [] ∧ r.1 ≤ 0xFFFFFFFF ∧ UInt32.ofNat r.1 ≥ startUid ∧ UInt32.ofNat r.1 > max then UInt32.ofNat r.1 else max
  else max

/-- The loop of `account_next_uid` -/
def nextUidLoop (startUid : UInt32) : Nat → Text → UInt32 → UInt32
  | 0, _, max => max
  | fuel + 1, p, max =>
      if p = [] then max
      else
        match thirdField p with
        | none => max
        | some num =>
            if 10 ∈ p then
              nextUidLoop startUid fuel ((p.dropWhile fun c => decide (c ≠ 10)).drop 1) (largerUid startUid num max)
            else largerUid startUid num max

/-- `account_next_uid` -/
def accountNextUid (text : Text) (startUid : UInt32) : Option UInt32 :=
  let max := nextUidLoop startUid text.length text (if startUid ≠ 0 then startUid - 1 else 999)
  if max = 0xFFFFFFFF then none else some (max + 1)

/-! ## `useradd` -/

structure UseraddArgs where
  root : Option Text := none
  home : Option Text := none
  shell : Text := ascii "/bin/sh"
  comment : Text := []
  name : Option Text := none
  uid : Option UInt32 := none
  gid : Option UInt32 := none
  createHome : Bool := true

/-- An option with a value; no result for another argument, and none inside for a value that is not accepted. -/
def useraddValue (a v : Text) (o : UseraddArgs) : Option (Option UseraddArgs) :=
  if a = ascii "-R" then some (some { o with root := some v })
  else if a = ascii "-u" then some ((parseU32 v).map fun u => { o with uid := some u })
  else if a = ascii "-g" then some ((parseU32 v).map fun g => { o with gid := some g })
  else if a = ascii "-d" then some (some { o with home := some v })
  else if a = ascii "-s" then some (some { o with shell := v })
  else if a = ascii "-c" then some (some { o with comment := v })
  else none

/-- An argument alone: `-m`, `-M` or the name. -/
def useraddFlag (a : Text) (o : UseraddArgs) : Option UseraddArgs :=
  if a = ascii "-m" then some { o with createHome := true }
  else if a = ascii "-M" then some { o with createHome := false }
  else if a.head? = some 45 then none
  else if o.name = none then some { o with name := some a }
  else none

/-- The loop over the arguments. -/
def useraddArgs : List Text → UseraddArgs → Option UseraddArgs
  | [], o => some o
  | [a], o => useraddFlag a o
  | a :: v :: rest, o =>
      match useraddValue a v o with
      | some r => r.bind (useraddArgs rest)
      | none => (useraddFlag a o).bind (useraddArgs (v :: rest))

/-- What `useradd` is going to enter, and the texts of the files. -/
structure UseraddJob where
  root : Text
  name : Text
  uid : UInt32
  gid : UInt32
  comment : Text
  home : Text
  shell : Text
  createHome : Bool
  ownGroup : Bool
  passwdText : Text
  shadowText : Text
  groupText : Text
  gshadowText : Text
  deriving DecidableEq

/-- The default home. -/
def defaultHome (name : Text) : Text := snprintf 160 (ascii "/home/" ++ name)

/-- The values that are entered when the files are read. -/
def settleUseradd (o : UseraddArgs) (root name passwdText shadowText groupText gshadowText : Text) : Except Nat UseraddJob :=
  if accountHasName passwdText name then .error 1
  else
    match o.uid.or (accountNextUid passwdText 1000) with
    | none => .error 1
    | some uid =>
        let home := o.home.getD (defaultHome name)
        if home.head? ≠ some 47 then .error 1
        else .ok ⟨root, name, uid, o.gid.getD uid, o.comment, home, o.shell, o.createHome, o.gid.isNone, passwdText, shadowText,
          groupText, gshadowText⟩

/-- The first part of `cmd_useradd`, up to the formatting of the lines. -/
def useraddJob (t : Target) (argv : List Text) : Except Nat UseraddJob :=
  match useraddArgs (argv.drop 1) {} with
  | none => .error 2
  | some o =>
      match o.root, o.name with
      | some root, some name =>
          if accountValidName name = false then .error 2
          else
            match accountJoinPath 512 root (ascii "etc") with
            | none => .error 1
            | some etc =>
                if !pathsFit root || !t.mkdirP etc 0o755 then .error 1
                else
                  match readAccount t root .passwd, readAccount t root .shadow, readAccount t root .group,
                      readAccount t root .gshadow with
                  | some passwdText, some shadowText, some groupText, some gshadowText =>
                      settleUseradd o root name passwdText shadowText groupText gshadowText
                  | _, _, _, _ => .error 1
      | _, _ => .error 2

/-- `pline`, `sline`, `gline` and `gsline` -/
def UseraddJob.pline (j : UseraddJob) : Text :=
  snprintf 512 (j.name ++ ascii ":x:" ++ unsigned j.uid ++ ascii ":" ++ unsigned j.gid ++ ascii ":" ++ j.comment ++ ascii ":" ++
    j.home ++ ascii ":" ++ j.shell)

def UseraddJob.sline (j : UseraddJob) (now : Int64) : Text :=
  snprintf 256 (j.name ++ ascii ":!:" ++ signed (daysOf now) ++ ascii ":0:99999:7:::")

def UseraddJob.gline (j : UseraddJob) : Text := snprintf 256 (j.name ++ ascii ":x:" ++ unsigned j.gid ++ ascii ":")

def UseraddJob.gsline (j : UseraddJob) : Text := snprintf 256 (j.name ++ ascii ":!::")

/-- The new texts of the four files. -/
def UseraddJob.texts (j : UseraddJob) (now : Int64) : Option (List (AccountFile × Text)) := do
  let np ← accountAppendLine j.passwdText j.pline
  let ns ← accountAppendLine j.shadowText (j.sline now)
  if j.ownGroup && !accountHasName j.groupText j.name then do
    let ng ← accountAppendLine j.groupText j.gline
    let ngs ← accountAppendLine j.gshadowText j.gsline
    some [(.passwd, np), (.shadow, ns), (.group, ng), (.gshadow, ngs)]
  else some [(.passwd, np), (.shadow, ns), (.group, j.groupText), (.gshadow, j.gshadowText)]

/-- The home directory with its owner. -/
def UseraddJob.makeHome (j : UseraddJob) (t : Target) : Bool :=
  match accountJoinPath 512 j.root j.home with
  | none => false
  | some path => t.mkdirP path 0o755 && t.chown path j.uid j.gid

/-- The second part of `cmd_useradd` -/
def UseraddJob.run (j : UseraddJob) (t : Target) (now : Int64) : Outcome :=
  match j.texts now with
  | none => ⟨1, []⟩
  | some texts =>
      let w := writeAccounts t j.root texts
      if w.2 = false then ⟨1, w.1⟩
      else if j.createHome && !j.makeHome t then ⟨1, w.1⟩
      else ⟨0, w.1⟩

/-- `cmd_useradd` -/
def cmdUseradd (t : Target) (now : Int64) (argv : List Text) : Outcome :=
  match useraddJob t argv with
  | .error rc => ⟨rc, []⟩
  | .ok j => j.run t now

/-! ## `passwd` -/

/-- The alphabet of `make_salt` -/
def saltAlphabet : Text := ascii "abcdefghijklmnopqrstuvwxyzABCDEFGHIJKLMNOPQRSTUVWXYZ0123456789./"

/-- The loop of `make_salt` -/
def saltLoop : Nat → UInt64 → Text
  | 0, _ => []
  | n + 1, x =>
      let x := x ^^^ (x <<< 13)
      let x := x ^^^ (x >>> 7)
      let x := x ^^^ (x <<< 17)
      saltAlphabet.getD (x &&& 63).toNat 0 :: saltLoop n x

/-- `make_salt`, from the time and the address of the name -/
def makeSalt (seed : UInt64) : Text := saltLoop 16 seed

structure PasswdArgs where
  root : Option Text := none
  name : Option Text := none
  password : Option Text := none
  hashArg : Option Text := none

/-- The loop over the arguments. -/
def passwdValue (a v : Text) (o : PasswdArgs) : Option PasswdArgs :=
  if a = ascii "-R" then some { o with root := some v }
  else if a = ascii "--hash" then some { o with hashArg := some v }
  else none

def passwdPlain (a : Text) (o : PasswdArgs) : Option PasswdArgs :=
  if o.name = none then some { o with name := some a }
  else if o.password = none then some { o with password := some a }
  else none

def passwdArgs : List Text → PasswdArgs → Option PasswdArgs
  | [], o => some o
  | [a], o => passwdPlain a o
  | a :: v :: rest, o =>
      match passwdValue a v o with
      | some o => passwdArgs rest o
      | none => (passwdPlain a o).bind (passwdArgs (v :: rest))

/-- What the entry gets: a hash as it was given, or the hash of a password. -/
inductive Secret
  | hash (h : Text)
  | password (p : Text)
  deriving DecidableEq

/-- The arguments that are one or the other. -/
def secretOf : Option Text → Option Text → Option Secret
  | some h, none => some (.hash h)
  | none, some p => some (.password p)
  | _, _ => none

/-- What `passwd` is going to enter, and the text of the file. -/
structure PasswdJob where
  root : Text
  name : Text
  secret : Secret
  shadowText : Text
  deriving DecidableEq

/-- The buffer `hash`: a hash is checked for its length and its first character. -/
def hashOf (seed : UInt64) : Secret → Except Nat Text
  | .hash h => if h.length ≥ 160 ∨ h.head? ≠ some 36 then .error 2 else .ok (snprintf 160 h)
  | .password p =>
      match accountSha256Crypt p (makeSalt seed) 160 with
      | none => .error 1
      | some h => .ok h

/-- The first part of `cmd_passwd`, up to the hash. -/
def passwdJob (t : Target) (argv : List Text) : Except Nat PasswdJob :=
  match passwdArgs (argv.drop 1) {} with
  | none => .error 2
  | some o =>
      match o.root, o.name, secretOf o.hashArg o.password with
      | some root, some name, some secret =>
          if accountValidName name = false then .error 2
          else
            match readAccount t root .passwd, readAccount t root .shadow with
            | some passwdText, some shadowText =>
                if accountHasName passwdText name = false then .error 1 else .ok ⟨root, name, secret, shadowText⟩
            | _, _ => .error 1
      | _, _, _ => .error 2

/-- `line` -/
def PasswdJob.line (j : PasswdJob) (now : Int64) (hash : Text) : Text :=
  snprintf 320 (j.name ++ ascii ":" ++ hash ++ ascii ":" ++ signed (daysOf now) ++ ascii ":0:99999:7:::")

/-- The second part of `cmd_passwd` -/
def PasswdJob.run (j : PasswdJob) (t : Target) (now : Int64) (seed : UInt64) : Outcome :=
  match hashOf seed j.secret with
  | .error rc => ⟨rc, []⟩
  | .ok hash =>
      match accountReplaceNamedLine j.shadowText j.name (j.line now hash) with
      | none => ⟨1, []⟩
      | some ns =>
          let w := writeAccounts t j.root [(.shadow, ns)]
          ⟨if w.2 = false then 1 else 0, w.1⟩

/-- `cmd_passwd` -/
def cmdPasswd (t : Target) (now : Int64) (seed : UInt64) (argv : List Text) : Outcome :=
  match passwdJob t argv with
  | .error rc => ⟨rc, []⟩
  | .ok j => j.run t now seed

end Guppy.Account
