import EventContexts.Context
import EventContexts.Logging
import EventContexts.Schema.Level

namespace EventContexts

namespace Options

def toDocument (o : Options) : Document :=
  .map
    [("reuse_partition_ids", .bool o.reuseIds),
      ("max_partitions", o.limit.elim .null fun n => .int n)]

def readLimit? (d : Document) : Option Nat := (d.asIntIn? 0 UInt64.size).map Int.toNat

def ofDocument? (d : Document) : Option Options := do
  match ← d.fields? ["reuse_partition_ids", "max_partitions"] with
  | [reuseIds, limit] =>
      return { reuseIds := ← Document.orDefault? false Document.asBool? reuseIds
               limit := ← Document.orDefault? none (Document.asOptional? readLimit?) limit }
  | _ => none

end Options

namespace Logging

def toDocument (l : Logging) : Document :=
  .map [("level", .text l.level), ("format", .text l.format)]

def ofDocument? (d : Document) : Option Logging := do
  match ← d.fields? ["level", "format"] with
  | [level, format] =>
      let default : Logging := {}
      return { level := ← Document.orDefault? default.level Document.asText? level
               format := ← Document.orDefault? default.format Document.asText? format }
  | _ => none

end Logging

structure Config where
  name : String
  levels : List Level
  options : Options := {}
  logging : Logging := {}
  deriving DecidableEq

namespace Config

def toDocument (c : Config) : Document :=
  .map
    [("name", .text c.name), ("levels", .seq (c.levels.map Level.toDocument)),
      ("manager", c.options.toDocument), ("logging", c.logging.toDocument)]

def ofDocument? (numbered : Bool) (d : Document) : Option Config := do
  match ← d.fields? ["name", "levels", "manager", "logging"] with
  | [some name, some levels, options, logging] =>
      return { name := ← name.asText?
               levels := ← levels.asListOf? (Level.ofDocument? numbered)
               options := ← Document.orDefault? {} Options.ofDocument? options
               logging := ← Document.orDefault? {} Logging.ofDocument? logging }
  | _ => none

def declaration (c : Config) : Except Error Declaration :=
  Declaration.makeInOrder c.name c.levels

def context (c : Config) : Except Error Context :=
  c.declaration.map fun d => Context.new d c.options

end Config

end EventContexts
