import CS240.Lib.Machine
import CS240.Lib.TermLog
import CS240.Lib.Utf8
import CS240.Lib.Text
import CS240.Lib.Files
import CS240.Lib.Attempts
import CS240.Lib.Grouping
import CS240.Lib.Intake
import CS240.Lib.Choices
import CS240.Lib.Runs
import CS240.Raft.Node
import CS240.Raft.Sections
import CS240.Raft.Cluster
import CS240.Raft.Steps
import CS240.Raft.Defects
import CS240.Raft.Applier
import CS240.Raft.Persistence
import CS240.Raft.Protocol
import CS240.Raft.Matching
import CS240.Raft.Completeness
import CS240.Raft.Commitment
import CS240.Raft.Refinement
import CS240.Raft.Votes
import CS240.Raft.Elections
import CS240.Raft.Replication
import CS240.Raft.Safety
import CS240.Raft.Entries
import CS240.Raft.Bookkeeping
import CS240.Raft.Indices
import CS240.Raft.Requests
import CS240.Raft.Leadership
import CS240.Raft.Backtracking
import CS240.Labrpc.Network
import CS240.Labrpc.Calls
import CS240.Lib.Threads
import CS240.Raft.Config
import CS240.Raft.Control
import CS240.Raft.Tested
import CS240.Lib.Slots
import CS240.Raft.Simulation
import CS240.Raft.Checker
import CS240.Raft.Reports
import CS240.Raft.Agreement
import CS240.MapReduce.Job
import CS240.MapReduce.Sequential
import CS240.MapReduce.Text
import CS240.MapReduce.Leftovers
import CS240.MapReduce.Cleanup
import CS240.MapReduce.Distributed
import CS240.MapReduce.Scheduling
import CS240.Lib.Remaining
import CS240.MapReduce.Progress
import CS240.MapReduce.Worker
import CS240.MapReduce.WordCount
import CS240.MapReduce.InvertedIndex
import CS240.Gossip.Store
import CS240.Gossip.Node
import CS240.Gossip.Network
import CS240.Gossip.Horizon
import CS240.Gossip.AntiEntropy
import CS240.Gossip.Analysis
import CS240.Gossip.Logs
import CS240.Gossip.Spread
import CS240.Gossip.Launch
import CS240.Gossip.Report
import CS240.Suite.ParamGrid
import CS240.Suite.Results
