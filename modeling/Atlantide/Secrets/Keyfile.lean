import Atlantide.Core.Value
import Atlantide.Lib.System

/-! # The keyfile and the store it opens

An install keeps one key in a file of its own, made on first use, and under it a store of secrets
and the values that state holds sealed. Any number of processes may start on the same files at once,
and any of them may be killed. Files are written beside their place and linked or renamed into it, so
that they are there in full or not at all. -/

namespace Atlantide.Secrets

open Interleaving

abbrev Bytes := List UInt8

def ascii (text : String) : Bytes := text.toList.map fun c => c.toNat.toUInt8

def nonceBytes : Nat := 12
def keyBytes : Nat := 32

/-- The header of the store's file. -/
def storeMagic : Bytes := ascii "ATLSTORE1\n"
/-- What a store is bound to, so that it cannot be replayed as a sealed value. -/
def storeAad : Bytes := ascii "atlantide/store/v1"
/-- The version in front of a sealed value. -/
def sealPrefix : String := "v2:"
def sealAad : Bytes := ascii "atlantide/sealed/v2"
def saltPrefix : Bytes := ascii "atlantide/secret-salt/v1"

/-- What libraries compute: AES-GCM by key, nonce and associated data, SHA-256, and encodings. -/
structure Library where
  encrypt : (key nonce data aad : Bytes) → Bytes
  decrypt : (key nonce data aad : Bytes) → Option Bytes
  sha256 : Bytes → Bytes
  dumps : Dict String String → Bytes
  /-- Nothing for what is no JSON, and no table for what is no object. -/
  loads : Bytes → Option (Option (Dict String String))
  base64 : Bytes → String
  unbase64 : String → Option Bytes
  utf8 : String → Bytes
  text : Bytes → Option String

/-- What was written is read back. -/
structure Library.Lawful (library : Library) : Prop where
  decrypt_encrypt : ∀ key nonce data aad, key.length = keyBytes → nonce.length = nonceBytes →
    library.decrypt key nonce (library.encrypt key nonce data aad) aad = some data
  loads_dumps : ∀ values, library.loads (library.dumps values) = some (some values)
  unbase64_base64 : ∀ data, library.unbase64 (library.base64 data) = some data
  text_utf8 : ∀ value, library.text (library.utf8 value) = some value

/-! ## What processes ask of the files -/

/-- A change of the store. -/
inductive Change
  | set (name value : String)
  | delete (name : String)
  deriving DecidableEq

def Change.apply (values : Dict String String) : Change → Dict String String
  | .set name value => values.insert name value
  | .delete name => values.erase name

/-- What the changes make of an empty store. -/
def replay (changes : List Change) : Dict String String := changes.foldl Change.apply ∅

inductive Request
  | keyExists
  | statKey
  | readKey
  | urandom (count : Nat)
  /-- Writes the key beside its place and links it there, unless the name is taken. -/
  | linkKey (key : Bytes)
  | storeExists
  | readStore
  /-- Writes the store beside its place and renames it over the old one; the change is told along. -/
  | replaceStore (blob : Bytes) (change : Change)
  | lock
  | unlock

abbrev Request.Result : Request → Type
  | keyExists | linkKey _ | storeExists => Bool
  | statKey => Nat
  | readKey | readStore => Bytes
  | urandom count => { bytes : Bytes // bytes.length = count }
  | replaceStore .. | lock | unlock => Unit

/-- There is no reply where the system raises an error. -/
abbrev Request.Reply (request : Request) : Type := Option request.Result

inductive Fault
  | os
  | mode (mode : Nat)
  | length (count : Nat)
  /-- The name is taken by what is no keyfile. -/
  | dangling
  | noKeyfile
  | decrypt
  | notStore
  | json
  | corrupt
  | notFound (name : String)
  /-- A sealed value without a version. -/
  | legacy
  | corruptSeal
  | unicode
  deriving DecidableEq

abbrev Secret := Prog Request Request.Reply Fault

def attempt (request : Request) : Secret request.Result :=
  .ask request fun
    | some value => .ret value
    | none => .raise .os

/-! ## The key -/

def forbiddenMode : Nat := 0o077

def readKeyfile : Secret Bytes := do
  let mode ← attempt .statKey
  if mode &&& forbiddenMode ≠ 0 then .raise (.mode mode) else
    let key ← attempt .readKey
    if key.length ≠ keyBytes then .raise (.length key.length) else pure key

/-- Loads the key; never creates one. -/
def loadKey : Secret Bytes := do
  if ← attempt .keyExists then readKeyfile else .raise .noKeyfile

/-- Loads the key, creating it where there is none. -/
def loadOrCreateKey : Secret Bytes := do
  if ← attempt .keyExists then readKeyfile else
    let key ← attempt (.urandom keyBytes)
    if ← attempt (.linkKey key.val) then pure key.val else
      -- Another process created the key first.
      if ← attempt .keyExists then readKeyfile else .raise .dangling

def keyFor (create : Bool) : Secret Bytes := if create then loadOrCreateKey else loadKey

/-! ## What is encrypted under it -/

section

variable (library : Library)

def encryptBlob (key nonce data aad : Bytes) : Bytes :=
  nonce ++ library.encrypt key nonce data aad

def decryptBlob (key blob aad : Bytes) : Option Bytes :=
  library.decrypt key (blob.take nonceBytes) (blob.drop nonceBytes) aad

def storeBlob (key nonce : Bytes) (values : Dict String String) : Bytes :=
  storeMagic ++ encryptBlob library key nonce (library.dumps values) storeAad

def sealedText (key nonce : Bytes) (value : String) : String :=
  sealPrefix ++ library.base64 (encryptBlob library key nonce (library.utf8 value) sealAad)

def salt (key : Bytes) : Bytes := library.sha256 (saltPrefix ++ key)

/-- The store's values, and the key where it was loaded for them. -/
def loadStore : Secret (Dict String String × Option Bytes) := do
  if ← attempt .storeExists then
    let blob ← attempt .readStore
    if !storeMagic.isPrefixOf blob then .raise .notStore else
      let key ← loadKey
      match decryptBlob library key (blob.drop storeMagic.length) storeAad with
      | none => .raise .decrypt
      | some raw =>
        match library.loads raw with
        | none => .raise .json
        | some none => .raise .corrupt
        | some (some values) => pure (values, some key)
  else pure (∅, none)

/-- The key that was loaded before, if one was. -/
def cachedKey : Option Bytes → Secret Bytes
  | some key => pure key
  | none => loadOrCreateKey

def saveStore (values : Dict String String) (cached : Option Bytes) (change : Change) :
    Secret Unit := do
  let key ← cachedKey cached
  let nonce ← attempt (.urandom nonceBytes)
  attempt (.replaceStore (storeBlob library key nonce.val values) change)

/-- Holds the lock around a program, and gives it back whichever way that ends. -/
def locked {α : Type} (program : Secret α) : Secret α := do
  let outcome ← (do attempt .lock; program : Secret α).outcome
  attempt .unlock
  match outcome with
  | .ok value => pure value
  | .error fault => .raise fault

/-! ## What a process is for -/

inductive Call
  | set (name value : String)
  | delete (name : String)
  | resolve (name : String)
  | names
  | sealValue (value : String)
  | unsealValue (payload : String)
  | saltFor (create : Bool)

inductive Result
  | done
  | deleted (found : Bool)
  | value (value : String)
  | names (names : List String)
  | sealed (payload : String)
  | salt (salt : Bytes)
  deriving DecidableEq

def setSecret (name value : String) : Secret Result :=
  locked do
    let (values, cached) ← loadStore library
    saveStore library (values.insert name value) cached (.set name value)
    pure .done

def deleteSecret (name : String) : Secret Result :=
  locked do
    let (values, cached) ← loadStore library
    if name ∈ values then
      saveStore library (values.erase name) cached (.delete name)
      pure (.deleted true)
    else pure (.deleted false)

def resolveSecret (name : String) : Secret Result := do
  let (values, _) ← loadStore library
  match values[name]? with
  | some value => pure (.value value)
  | none => .raise (.notFound name)

def secretNames : Secret Result := do
  let (values, _) ← loadStore library
  pure (.names values.keys)

def sealValue (value : String) : Secret Result := do
  let key ← loadOrCreateKey
  let nonce ← attempt (.urandom nonceBytes)
  pure (.sealed (sealedText library key nonce.val value))

def unsealValue (payload : String) : Secret Result :=
  if !sealPrefix.toList.isPrefixOf payload.toList then .raise .legacy else
    match library.unbase64 (String.ofList (payload.toList.drop sealPrefix.toList.length)) with
    | none => .raise .corruptSeal
    | some blob => do
      let key ← loadKey
      match decryptBlob library key blob sealAad with
      | none => .raise .decrypt
      | some raw =>
        match library.text raw with
        | none => .raise .unicode
        | some value => pure (.value value)

def saltFor (create : Bool) : Secret Result := do
  if !create then
    if !(← attempt .keyExists) then .raise .noKeyfile else
      pure (.salt (salt library (← keyFor create)))
  else pure (.salt (salt library (← keyFor create)))

def program : Call → Secret Result
  | .set name value => setSecret library name value
  | .delete name => deleteSecret library name
  | .resolve name => resolveSecret library name
  | .names => secretNames library
  | .sealValue value => sealValue library value
  | .unsealValue payload => unsealValue library payload
  | .saltFor create => saltFor library create

end

/-! ## The files, and the processes on them -/

/-- What stands at the keyfile's path. -/
inductive KeyPath
  | free
  /-- The name is taken, by what leads nowhere. -/
  | dangling
  | file (mode : Nat) (bytes : Bytes)

abbrev Pid := Nat

structure Files where
  key : KeyPath := .free
  store : Option Bytes := none
  holder : Option Pid := none
  killed : Pid → Bool := fun _ => false
  /-- The changes written so far. -/
  commits : List Change := []

inductive Fate
  | done
  /-- An error is raised, also after the request has taken effect. -/
  | failed (landed : Bool)

structure Choice where
  fate : Fate := .done
  random : (count : Nat) → { bytes : Bytes // bytes.length = count }

inductive Outside
  /-- The system gives back the locks of a process that is killed. -/
  | kill (pid : Pid)
  | chmod (mode : Nat)

namespace Files

variable (files : Files)

def privateMode : Nat := 0o600

/-- The mode and the bytes of the keyfile. -/
def keyFile : Option (Nat × Bytes) :=
  match files.key with
  | .file mode bytes => some (mode, bytes)
  | _ => none

/-- The key linked into its place, unless that is taken. -/
def linked (key : Bytes) : Bool × Files :=
  match files.key with
  | .free => (true, { files with key := .file privateMode key })
  | _ => (false, files)

/-- The lock taken. A process that waits for it is not served; one that is served while another holds
it has been interrupted. -/
def taken (pid : Pid) : Option Unit × Files :=
  match files.holder with
  | none => (some (), { files with holder := some pid })
  | some _ => (none, files)

def released (pid : Pid) : Files :=
  if files.holder = some pid then { files with holder := none } else files

/-- A request taking effect. -/
def perform (pid : Pid) (random : (count : Nat) → { bytes : Bytes // bytes.length = count }) :
    (request : Request) → request.Reply × Files
  | .keyExists => (some files.keyFile.isSome, files)
  | .statKey => (files.keyFile.map (·.1), files)
  | .readKey => (files.keyFile.map (·.2), files)
  | .urandom count => (some (random count), files)
  | .linkKey key => (some (files.linked key).1, (files.linked key).2)
  | .storeExists => (some files.store.isSome, files)
  | .readStore => (files.store, files)
  | .replaceStore blob change =>
    (some (), { files with store := some blob, commits := files.commits ++ [change] })
  | .lock => files.taken pid
  | .unlock => (some (), files.released pid)

def serve (pid : Pid) (choice : Choice) (files : Files) (request : Request) :
    request.Reply × Files :=
  if files.killed pid then (none, files) else
    match choice.fate with
    | .done => files.perform pid choice.random request
    | .failed landed => (none, if landed then (files.perform pid choice.random request).2 else files)

def outside : Outside → Files → Files
  | .kill pid, files =>
    { files with
      killed := Function.update files.killed pid true
      holder := if files.holder = some pid then none else files.holder }
  | .chmod mode, files =>
    match files.key with
    | .file _ bytes => { files with key := .file mode bytes }
    | _ => files

end Files

/-- The processes of an install. -/
def processes (library : Library) : System Pid Choice Files Request Request.Reply Outside Call
    Fault Result where
  serve := Files.serve
  env := Files.outside
  program _ call := program library call

end Atlantide.Secrets
