import ConcurrencyCrypto.Library.Loops
import ConcurrencyCrypto.Library.BlockStream
import ConcurrencyCrypto.Library.Masking
import ConcurrencyCrypto.Library.Stdio
import ConcurrencyCrypto.Crypto.Common
import ConcurrencyCrypto.Crypto.Fips180
import ConcurrencyCrypto.Crypto.Sha256
import ConcurrencyCrypto.Crypto.Sha256Transform
import ConcurrencyCrypto.Crypto.Sha256Stream
import ConcurrencyCrypto.Crypto.ChaCha20
import ConcurrencyCrypto.Crypto.FileIo
import ConcurrencyCrypto.Crypto.FileStream
import ConcurrencyCrypto.Crypto.FileCalls
import ConcurrencyCrypto.Crypto.FileRoundTrip
import ConcurrencyCrypto.Crypto.FileFailures
import ConcurrencyCrypto.Garage.Queue
import ConcurrencyCrypto.Garage.QueueRuns
import ConcurrencyCrypto.Garage.Machine
import ConcurrencyCrypto.Library.Tokens
import ConcurrencyCrypto.Garage.Invariant
import ConcurrencyCrypto.Garage.Safety
import ConcurrencyCrypto.Garage.Progress
import ConcurrencyCrypto.Library.Conflicts
import ConcurrencyCrypto.Philosophers.Machine
import ConcurrencyCrypto.Philosophers.Invariant
import ConcurrencyCrypto.Philosophers.Safety
import ConcurrencyCrypto.Library.Lifo
import ConcurrencyCrypto.Philosophers.Start
import ConcurrencyCrypto.Stack.Machine
import ConcurrencyCrypto.Stack.Safety
import ConcurrencyCrypto.Crypto.Collisions
import ConcurrencyCrypto.Crypto.Auth
import ConcurrencyCrypto.Garage.Aging
import ConcurrencyCrypto.Library.Descriptors
import ConcurrencyCrypto.Library.Iteration
import ConcurrencyCrypto.Shells.Merge
import ConcurrencyCrypto.Library.Text
import ConcurrencyCrypto.Shells.ArchiveShell
import ConcurrencyCrypto.Shells.LineGrammar
import ConcurrencyCrypto.Garage.Workers
import ConcurrencyCrypto.Garage.WorkerSafety
import ConcurrencyCrypto.Crypto.Rfc8439
import ConcurrencyCrypto.Library.Slots
import ConcurrencyCrypto.Crypto.ChaChaRounds
import ConcurrencyCrypto.Crypto.ChaChaBlock
import ConcurrencyCrypto.Crypto.ChaChaInverse
import ConcurrencyCrypto.Crypto.StreamCipher
import ConcurrencyCrypto.Crypto.KeyDerivation
import ConcurrencyCrypto.Crypto.Main
import ConcurrencyCrypto.Letters.Machine
import ConcurrencyCrypto.Letters.Safety
import ConcurrencyCrypto.Library.Lines
import ConcurrencyCrypto.Library.Programs
import ConcurrencyCrypto.Library.Processes
import ConcurrencyCrypto.Library.Reaping
import ConcurrencyCrypto.Shells.Forking
import ConcurrencyCrypto.Shells.LineShells
import ConcurrencyCrypto.Shells.LineCommands
import ConcurrencyCrypto.Shells.CatalogShell
import ConcurrencyCrypto.Shells.CatalogGrammar
import ConcurrencyCrypto.Shells.CatalogLines
import ConcurrencyCrypto.Shells.ArchiveProcess
import ConcurrencyCrypto.Shells.ChildDiscipline
import ConcurrencyCrypto.Library.ProcessTrees
import ConcurrencyCrypto.Trees.BinTree
import ConcurrencyCrypto.Trees.Levels
import ConcurrencyCrypto.Library.Sequential
import ConcurrencyCrypto.Crypto.Sha256Range
import ConcurrencyCrypto.Crypto.Wiping
import ConcurrencyCrypto.Encryptor.CreateEncryptedCopy
import ConcurrencyCrypto.Garage.WallClock
import ConcurrencyCrypto.Library.BoundedWords
import ConcurrencyCrypto.Library.ForkJoin
import ConcurrencyCrypto.MatrixThreads.RowSums
import ConcurrencyCrypto.Shells.ProtectModes
import ConcurrencyCrypto.Shells.WordBuffers
import ConcurrencyCrypto.CpuRuntime.Counters
import ConcurrencyCrypto.Garage.Admission
import ConcurrencyCrypto.Garage.Ending
import ConcurrencyCrypto.Library.Households
import ConcurrencyCrypto.MatrixThreads.FillRows
import ConcurrencyCrypto.Philosophers.SharedIndex
import ConcurrencyCrypto.ProcessesThreads.Fibonacci
import ConcurrencyCrypto.Stack.Blocking
import ConcurrencyCrypto.Crypto.FileEffects
import ConcurrencyCrypto.Crypto.Session
import ConcurrencyCrypto.Encryptor.Outcomes
import ConcurrencyCrypto.Letters.Pace
import ConcurrencyCrypto.Library.Nesting
import ConcurrencyCrypto.Library.Orphans
import ConcurrencyCrypto.Library.ProcessCosts
import ConcurrencyCrypto.Shells.NestedShells
import ConcurrencyCrypto.Trees.Endings
import ConcurrencyCrypto.Trees.Orphans
import ConcurrencyCrypto.CpuRuntime.Freed
import ConcurrencyCrypto.Philosophers.PromptStart
import ConcurrencyCrypto.Library.StreamRuns
import ConcurrencyCrypto.Shells.SharedInput
