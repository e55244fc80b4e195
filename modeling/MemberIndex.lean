import MemberIndex.Main
import MemberIndex.Report.Reader
import MemberIndex.Proofs.Run.Story
import MemberIndex.Proofs.Records
import MemberIndex.Proofs.Run.Replay
import MemberIndex.Proofs.Run.Finish
import MemberIndex.Proofs.Run.Carried
import MemberIndex.Proofs.Run.Conservation
import MemberIndex.Proofs.Run.Diagnostics
import MemberIndex.Proofs.Run.OrderIndependence
import MemberIndex.Proofs.Run.WriteAhead
import MemberIndex.Proofs.Text.Utf8
import MemberIndex.Proofs.Text.Lines
import MemberIndex.Proofs.Members.Listing
import MemberIndex.Proofs.Report.RoundTrip
import MemberIndex.Proofs.FileTree.Change
import MemberIndex.Proofs.Report.Write
import MemberIndex.Proofs.EndToEnd
import MemberIndex.Proofs.Path.Below
import MemberIndex.Proofs.Discovery.Walk
import MemberIndex.Proofs.Discovery.Exact
import MemberIndex.Proofs.Discovery.Identities
import MemberIndex.Proofs.Discovery.Separation
import MemberIndex.Proofs.Run.Isolation
import MemberIndex.Proofs.Run.Settling
import MemberIndex.Proofs.Disassembler.Lateness
import MemberIndex.Proofs.Disassembler.Timing
import MemberIndex.Proofs.Disassembler.LineOrder
import MemberIndex.Proofs.Disassembler.ChildEnd
import MemberIndex.Proofs.Run.OneTask
import MemberIndex.Proofs.Transcript.Channel
import MemberIndex.Proofs.FileTree.Open
import MemberIndex.Proofs.Run.LogFailure
import MemberIndex.Proofs.Run.LogLines
import MemberIndex.Proofs.Members.LongestNames
import MemberIndex.Proofs.Run.InOrder
import MemberIndex.Proofs.Run.LogBlocks
import MemberIndex.Proofs.Run.Sequential
import MemberIndex.Proofs.Run.LastWrite
import MemberIndex.Proofs.FileTree.Parents
import MemberIndex.Proofs.Run.EarlyFailure
import MemberIndex.Proofs.Members.FirstDeclaration
import MemberIndex.Proofs.Members.RawNames
import MemberIndex.Proofs.Members.Joining
import MemberIndex.Proofs.Members.Streams
import MemberIndex.Proofs.Members.NamePattern
import MemberIndex.Proofs.Members.LastWords
import MemberIndex.Proofs.Members.MemberLines
import MemberIndex.Proofs.Members.PrintedTypes
import MemberIndex.Proofs.Path.Identity
import MemberIndex.Proofs.Discovery.Extension
import MemberIndex.Proofs.Store
import MemberIndex.Proofs.Transcript.Filling
import MemberIndex.Proofs.Transcript.Sessions
import MemberIndex.Proofs.FileTree.Standing
import MemberIndex.Proofs.FileTree.Reopening
import MemberIndex.Proofs.Report.Frame
import MemberIndex.Proofs.Report.Replacing
import MemberIndex.Proofs.Report.Spelling
import MemberIndex.Proofs.Report.Shape
