import DynamicConfig.Keyed
/-!
# Stores

A store holds the source text of every entry of a configuration and what the entry was before. Every
change has a version, counted from 1 on over all entries, so that a client which knows a configuration
can ask for what has changed since.
-/

namespace DynamicConfig

/-- The source texts of the entries of a configuration, by their keys. -/
abbrev Config := Keyed String

/-- The changes since some version. -/
structure Changes where
  /-- The newest version among them, or the version that was asked about if there are none. -/
  version : Nat
  /-- The present texts of the entries that have changed. -/
  entries : Config
deriving Repr, DecidableEq

/-- Some former texts of an entry. -/
structure History where
  /-- Where older ones begin, empty if there are none. -/
  epoch : String
  /-- The texts, the newest first. -/
  values : List String
deriving Repr, DecidableEq

/-- Something that holds a configuration. To ask for changes may change what the store remembers,
but never the configuration. -/
class Store (σ : Type) where
  /-- The changes after a version. Version 0 is before every change. -/
  changesSince : (version : Nat) → StateM σ Changes
  /-- Gives an entry a new text. -/
  set : (key value : String) → σ → σ
  /-- The texts of an entry up to an epoch. The empty epoch is the present. -/
  history : (key epoch : String) → σ → History

/-- The whole configuration. -/
def Store.config {σ : Type} [Store σ] : StateM σ Config := do
  return (← Store.changesSince 0).entries

end DynamicConfig
