import NestedStyles.Cache.Disk
import NestedStyles.Options.Basic
/-!
# Stores of tokens

A build keeps tokens in a table in memory or in a folder on disk; the options decide which. Both
answer the same requests.

* `Store` is one table as an action sees it, `StoreM` the actions;
* `Handle` names a table of a `Workspace`, which holds the files, the tables in memory and the host,
  and `Workspace.use` runs an action on the table of a handle.
-/
namespace NestedStyles.Cache

open Storage (FileTree Host)

inductive Store where
  | memory (table : Table)
  | disk (d : Disk)

/-- Actions on a store, which may fail half-way: what has been done stays done. -/
abbrev StoreM := ExceptT Fault (StateM Store)

namespace Store

/-- The token of a key, which is computed from the keys of the store and added if there is none. -/
def fetch (key : String) (compute : List String → String) : StoreM String := fun
  | .memory table =>
    let (token, table) := table.fetch key compute
    (.ok token, .memory table)
  | .disk d =>
    let (result, d) := Disk.fetch key compute d
    (result, .disk d)

def clear : StoreM Unit := fun
  | .memory _ => (.ok (), .memory [])
  | .disk d =>
    let (result, d) := Disk.clear d
    (result, .disk d)

def count : StoreM Nat := fun
  | .memory table => (.ok table.length, .memory table)
  | .disk d =>
    let (result, d) := Disk.count d
    (result, .disk d)

end Store

/-! ## Handles -/

/-- A handle on a table in memory, by its name, or on one on disk. -/
inductive Handle where
  | memory (name : String)
  | disk (store : DiskStore)

namespace Handle

/-- The table in which class names are kept. -/
def classNames : String := "classnames"

def name : Handle → String
  | memory name => name
  | disk store => store.name

/-- A handle on the table for class names that the options select. -/
def forOptions (o : Options) : Handle :=
  match o.cacheDir with
  | some dir => disk (DiskStore.inFolder dir classNames)
  | none => memory classNames

end Handle

/-- All that builds share: the files, the tables in memory, and the host. -/
structure Workspace where
  tree : FileTree
  tables : OrderedMap String Table
  host : Host

/-- Runs an action on the table of a handle: the result, the handle with what it has read by then,
and what becomes of the workspace. -/
def Workspace.use {α : Type} (w : Workspace) (h : Handle) (action : StoreM α) :
    Except Fault α × Handle × Workspace :=
  match h with
  | .memory name =>
    match action (.memory ((w.tables.get? name).getD [])) with
    | (result, .memory table) => (result, h, { w with tables := w.tables.insert name table })
    | (result, .disk _) => (result, h, w)
  | .disk store =>
    match action (.disk { store, site := w.tree.site store.dir, host := w.host }) with
    | (result, .disk d) =>
      (result, .disk d.store, { w with tree := w.tree.setSite store.dir d.site, host := d.host })
    | (result, .memory _) => (result, h, w)

end NestedStyles.Cache
