import RepoAtlas.Graph.Query
import RepoAtlas.Settings.Basic

/-!
# Hybrid ranking

Hits of a search are ranked by a weighted sum of three signals between zero and one: the similarity,
how many files import the hit's file, and how often it changed lately; the latter two relative to the
largest count among the hits.
-/

namespace RepoAtlas

/-- A hit of a search. -/
structure SearchHit where
  chunkId : String
  score : Float32
  unitId : String
  path : String
  name : String
  qualifiedName : String
  kind : UnitKind
  lineStart : Nat
  lineEnd : Nat
  signature : Option String
  text : String
deriving Inhabited

namespace SearchHit

def ofMatch (m : ChunkMatch) : SearchHit :=
  { chunkId := m.chunkId
    score := m.score
    unitId := m.unit.id
    path := m.unit.path
    name := m.unit.name
    qualifiedName := m.unit.qualifiedName
    kind := m.unit.kind
    lineStart := m.unit.span.lineStart
    lineEnd := m.unit.span.lineEnd
    signature := m.unit.signature
    text := m.text }

/-- The members of a hit. -/
def fields (h : SearchHit) : List (String × Json) :=
  [("chunk_id", toJson h.chunkId), ("score", toJson h.score), ("unit_id", toJson h.unitId),
    ("path", toJson h.path), ("name", toJson h.name), ("qualified_name", toJson h.qualifiedName),
    ("kind", toJson h.kind), ("line_start", toJson h.lineStart), ("line_end", toJson h.lineEnd),
    ("signature", toJson h.signature), ("text", toJson h.text)]

instance : ToJson SearchHit := ⟨fun h => .obj h.fields⟩

instance : OfJson SearchHit where
  ofJson? j := do
    return {
      chunkId := ← j.get? String "chunk_id"
      score := ← j.get? Float32 "score"
      unitId := ← j.get? String "unit_id"
      path := ← j.get? String "path"
      name := ← j.get? String "name"
      qualifiedName := ← j.get? String "qualified_name"
      kind := ← j.get? UnitKind "kind"
      lineStart := ← j.get? Nat "line_start"
      lineEnd := ← j.get? Nat "line_end"
      signature := ← j.opt? String "signature"
      text := ← j.get? String "text" }

end SearchHit

/-- A hit with its signals and its rank. -/
structure RankedHit where
  hit : SearchHit
  hybridScore : Float
  semantic : Float
  centrality : Float
  churn : Float
deriving Inhabited

instance : ToJson RankedHit where
  toJson r := .obj (r.hit.fields ++ [("hybrid_score", toJson r.hybridScore),
    ("semantic", toJson r.semantic), ("centrality", toJson r.centrality), ("churn", toJson r.churn)])

/-- Counts by path. -/
abbrev Counts := Std.ExtTreeMap String Nat

/-- The importers and the recent commits of files. -/
structure FileSignals where
  fanIn : Counts := ∅
  churn : Counts := ∅

namespace Hybrid

/-- A count as a part of the largest one. -/
def normalized (value largest : Nat) : Float :=
  if largest = 0 then 0 else Float.ofNat value / Float.ofNat largest

/-- A similarity between zero and one; zero if it is not a number. -/
def clamped (score : Float32) : Float :=
  if Single.finite score then
    let x := score.toFloat
    if x < 0 then 0 else if 1 < x then 1 else x
  else 0

/-- The count of a path, zero if there is none. -/
def count (counts : Counts) (path : String) : Nat := counts[path]?.getD 0

/-- The largest count among some hits. -/
def largest (c : Counts) (hits : List SearchHit) : Nat :=
  hits.foldl (fun n h => max n (count c h.path)) 0

/-- The rank of a hit by its signals. -/
def score (w : HybridWeights) (semantic centrality churn : Float) : Float :=
  w.semantic * semantic + w.structural * centrality + w.recency * churn

/-- A number that is ordered as the doubles are, with -0 before 0. -/
def order (x : Float) : Int :=
  let b := x.toBits.toNat
  if b < 0x8000000000000000 then b else -1 - (b - 0x8000000000000000 : Nat)

/-- A hit with its signals, given the largest counts. -/
def signal (w : HybridWeights) (s : FileSignals) (maxFanIn maxChurn : Nat) (h : SearchHit) : RankedHit :=
  let semantic := clamped h.score
  let centrality := normalized (count s.fanIn h.path) maxFanIn
  let churn := normalized (count s.churn h.path) maxChurn
  ⟨h, score w semantic centrality churn, semantic, centrality, churn⟩

/-- Hits by descending rank; equal ranks keep their order. -/
def rank (hits : List SearchHit) (s : FileSignals) (w : HybridWeights) : List RankedHit :=
  (hits.map (signal w s (largest s.fanIn hits) (largest s.churn hits))).mergeSort fun a b =>
    order b.hybridScore ≤ order a.hybridScore

end Hybrid

end RepoAtlas
