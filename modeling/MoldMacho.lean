import MoldMacho.Arch.ApplyRelocs
import MoldMacho.Arch.Arm64
import MoldMacho.Arch.Arm64Apply
import MoldMacho.Arch.Arm64Insns
import MoldMacho.Arch.Relocs
import MoldMacho.Arch.Stubs
import MoldMacho.Arch.X86
import MoldMacho.Arch.X86Apply
import MoldMacho.Chunks.BindInfo
import MoldMacho.Chunks.ChainedFixups
import MoldMacho.Chunks.ChainedFixupsImage
import MoldMacho.Chunks.ChainedFixupsWalk
import MoldMacho.Chunks.CodeSignature
import MoldMacho.Chunks.EhFrameCells
import MoldMacho.Chunks.EhFrameKept
import MoldMacho.Chunks.EhFrameRead
import MoldMacho.Chunks.EhFrameSection
import MoldMacho.Chunks.EhFrameWriters
import MoldMacho.Chunks.EhFrameWritten
import MoldMacho.Chunks.ExportTrie
import MoldMacho.Chunks.ExportTriePlacement
import MoldMacho.Chunks.ExportTrieWalk
import MoldMacho.Chunks.FunctionStarts
import MoldMacho.Chunks.Header
import MoldMacho.Chunks.Imports
import MoldMacho.Chunks.LazyBinding
import MoldMacho.Chunks.LoadCommands
import MoldMacho.Chunks.Opcodes
import MoldMacho.Chunks.OutputSection
import MoldMacho.Chunks.RebaseInfo
import MoldMacho.Chunks.SectionParts
import MoldMacho.Chunks.Segments
import MoldMacho.Chunks.SplitInfo
import MoldMacho.Chunks.UnwindInfo
import MoldMacho.Chunks.UnwindInfoLookup
import MoldMacho.DeadStrip
import MoldMacho.Driver
import MoldMacho.Dwarf.CompileUnit
import MoldMacho.Dwarf.Parse
import MoldMacho.Dwarf.Reader
import MoldMacho.Dwarf.UnitForms
import MoldMacho.Dwarf.UnitNames
import MoldMacho.Dwarf.UnitNumbers
import MoldMacho.Dwarf.UnitOverflow
import MoldMacho.Icf.DigestMap
import MoldMacho.Icf.DigestRounds
import MoldMacho.InputFiles.ArchiveFormat
import MoldMacho.InputFiles.ArchiveMembers
import MoldMacho.InputFiles.Definitions
import MoldMacho.InputFiles.Dylibs
import MoldMacho.InputFiles.EhFrame
import MoldMacho.InputFiles.ExportKinds
import MoldMacho.InputFiles.ExportTrieEntries
import MoldMacho.InputFiles.FdeCies
import MoldMacho.InputFiles.LinkUnwind
import MoldMacho.InputFiles.ParseUnwind
import MoldMacho.InputFiles.UnwindRanges
import MoldMacho.InputFiles.UnwindRecords
import MoldMacho.InputSections
import MoldMacho.LazyLoads.Binding
import MoldMacho.LazyLoads.Helpers
import MoldMacho.LazyLoads.Records
import MoldMacho.LazyLoads.Slots
import MoldMacho.LazyLoads.Tables
import MoldMacho.Lib.BitFields
import MoldMacho.Lib.BitSets
import MoldMacho.Lib.Bytes
import MoldMacho.Lib.Counted
import MoldMacho.Lib.Decimal
import MoldMacho.Lib.Edits
import MoldMacho.Lib.FirstOfKey
import MoldMacho.Lib.Interleave
import MoldMacho.Lib.KeyIndex
import MoldMacho.Lib.KeyRuns
import MoldMacho.Lib.LeastLabels
import MoldMacho.Lib.LeastMet
import MoldMacho.Lib.LengthRecords
import MoldMacho.Lib.LinearProbing
import MoldMacho.Lib.Links
import MoldMacho.Lib.Lists
import MoldMacho.Lib.LongestSuffix
import MoldMacho.Lib.Lookup
import MoldMacho.Lib.Marking
import MoldMacho.Lib.OpStream
import MoldMacho.Lib.Pieces
import MoldMacho.Lib.RadixTree
import MoldMacho.Lib.Rows
import MoldMacho.Lib.Runs
import MoldMacho.Lib.StableSort
import MoldMacho.Lib.Walk
import MoldMacho.Lib.Wildcards
import MoldMacho.Lib.WriterPool
import MoldMacho.Macho
import MoldMacho.Mergeable.Fixups
import MoldMacho.Mergeable.Record
import MoldMacho.MovedSubsections
import MoldMacho.Objc.CoalesceRefs
import MoldMacho.Objc.CoalescedRefs
import MoldMacho.Objc.Context
import MoldMacho.Objc.RefRecords
import MoldMacho.OutputFile
import MoldMacho.Passes.AssignInputSections
import MoldMacho.Passes.ClaimNewDylibs
import MoldMacho.Passes.CoalesceWeakDefs
import MoldMacho.Passes.ComputeUuid
import MoldMacho.Passes.CreateSegments
import MoldMacho.Passes.DeadStripDylibs
import MoldMacho.Passes.DylibOrdinals
import MoldMacho.Passes.DylibRanks
import MoldMacho.Passes.DylibSymbols
import MoldMacho.Passes.FirstExporters
import MoldMacho.Passes.GatherRuns
import MoldMacho.Passes.GatherSections
import MoldMacho.Passes.KeptImports
import MoldMacho.Passes.LateDylibs
import MoldMacho.Passes.LaterDylibs
import MoldMacho.Passes.LayOutSegments
import MoldMacho.Passes.LeastRank
import MoldMacho.Passes.LiteralSurvivors
import MoldMacho.Passes.LiveWinners
import MoldMacho.Passes.MarkLiveObjects
import MoldMacho.Passes.MergeLiterals
import MoldMacho.Passes.NearestDylibs
import MoldMacho.Passes.OrderFileLines
import MoldMacho.Passes.OrderFiles
import MoldMacho.Passes.OutputSectionNames
import MoldMacho.Passes.RankedDylibs
import MoldMacho.Passes.Replacements
import MoldMacho.Passes.ResolveSymbols
import MoldMacho.Passes.SectionAssignment
import MoldMacho.Passes.SegmentLayout
import MoldMacho.Passes.SortedMembers
import MoldMacho.Passes.WeakDefReplacements
import MoldMacho.Reader.LinkerOptions
import MoldMacho.Symbol
import MoldMacho.SymbolMoves
import MoldMacho.SymbolTable.Gather
import MoldMacho.SymbolTable.Sharded
import MoldMacho.Tapi.DirectiveOrder
import MoldMacho.Tapi.LdDirectives
import MoldMacho.Tapi.LdSymbols
import MoldMacho.Thunks
import MoldMacho.Util.Align
import MoldMacho.Util.Glob.AhoCorasick
import MoldMacho.Util.Glob.Backtrack
import MoldMacho.Util.Glob.GlobSet
import MoldMacho.Util.Glob.Nfa
import MoldMacho.Util.Glob.Pattern
import MoldMacho.Util.Glob.SuffixLinks
import MoldMacho.Util.Glob.TrieWords
import MoldMacho.Util.Leb128
import MoldMacho.Util.LebLoops
import MoldMacho.Util.Text
