import FlowSketch.Sketch.Merge
import FlowSketch.Sketch.Persistence
import FlowSketch.Proofs.Leaderboard.Peaks
import FlowSketch.Proofs.Sketch.RoundTrip
import FlowSketch.Proofs.Sketch.Tally
import FlowSketch.Proofs.Sketch.Acceptance
import FlowSketch.Proofs.Binary64.Division
import FlowSketch.Proofs.Grid.Exact
import FlowSketch.Proofs.Leaderboard.Standing
import FlowSketch.Proofs.Sketch.Exact
import FlowSketch.Proofs.Sketch.Sharding
import FlowSketch.Proofs.Sketch.Storage
import FlowSketch.Proofs.Sketch.Ranking
import FlowSketch.Proofs.Sketch.Merging
import FlowSketch.Proofs.Leaderboard.Ageing
import FlowSketch.Proofs.Sketch.Ageing
import FlowSketch.Proofs.Sketch.Agreement
import FlowSketch.Proofs.Sketch.Session
import FlowSketch.Proofs.Checked.Sketch
import FlowSketch.Proofs.Collision
import FlowSketch.Proofs.Sketch.Decline
import FlowSketch.Proofs.Sketch.Recording
import FlowSketch.Proofs.Sketch.MergeOrder
import FlowSketch.Proofs.Sketch.Draining
import FlowSketch.Proofs.Leaderboard.Frame
import FlowSketch.Proofs.Sketch.Frame
import FlowSketch.Proofs.Wire.Length
import FlowSketch.Proofs.Sketch.PrefixFree
import FlowSketch.Proofs.Grid.Winning
import FlowSketch.Proofs.Sketch.Winning
import FlowSketch.Proofs.Collision.Certain
import FlowSketch.Proofs.Binary64.Columns
import FlowSketch.Proofs.Accuracy
import FlowSketch.Proofs.Leaderboard.Intact
import FlowSketch.Proofs.Sketch.Emptiness
import FlowSketch.Proofs.Place
