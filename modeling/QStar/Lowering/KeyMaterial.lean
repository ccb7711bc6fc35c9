import QStar.Lowering.Prepare

/-!
# What a key is computed from

The byte streams that are hashed for the key of a prepared action, beside the
parts of the action and of the graph that they are meant to tell apart. Lists
are written without counts and strings end in a byte that can stand in them, so
the streams give the strings back only up to where strings and lists end.
-/
namespace QStar.Lowering

open QStar.Lib.CStrings
open QStar.Lib.Fnv
open QStar.Lib.Streams
open QStar.Base
open QStar.BuildGraph
open QStar.Stella

/-- What `compute_action_key` is called with. -/
structure KeyInput where
  host : Host
  graph : Graph
  ready : Ready

namespace KeyInput

variable {x y : KeyInput}

def action (x : KeyInput) : PreparedAction := x.ready.action

def material (x : KeyInput) : Material := x.ready.material x.host x.graph

/-- The bytes each input is digested from. -/
def inputStreams (x : KeyInput) (rels : List Bytes) : List Bytes :=
  rels.map fun rel => fileStream x.graph.buildDir rel (x.ready.disk rel)

/-- The streams fed to each hash, in the order of the calls. -/
def streams (x : KeyInput) : List (List Bytes) :=
  let m := x.material
  [[m.action.argv.flatMap hashStr], [(envStrings m.set m.action.env).flatMap hashStr],
    x.inputStreams m.inputs, [inputStream m.set m.seen m.inputs],
    x.inputStreams m.depInputs, [inputStream m.set m.seen m.depInputs],
    [m.action.toolPolicy.flatMap hashStr], [hashStr m.output],
    [(m.action.argv.headD [] :: m.action.externalTools).flatMap hashStr],
    [keyStream m.set m.action m.seen m.inputs m.depInputs m.output]]

/-- How often the terminator of `hash_str` stands in a string. -/
def marks (s : Bytes) : Nat := s.count 255

/-- A list of strings cut at every terminator. -/
def pieces (strings : List Bytes) : List Bytes := strings.flatMap (List.splitOn 255)

end KeyInput

end QStar.Lowering
