import ChainBase.Library.OrderedSequence
import ChainBase.Library.CutList
import ChainBase.Library.StampLog
import ChainBase.Library.Run
import ChainBase.Container.Index
import ChainBase.Container.MultiIndex
import ChainBase.Container.Linked
import ChainBase.Container.Modify
import ChainBase.Container.Table
import ChainBase.Container.PlainRefinement
import ChainBase.Container.UndoMultiIndex
import ChainBase.Library.Snapshot
import ChainBase.Container.Restore
import ChainBase.Container.Housed
import ChainBase.Container.Loops
import ChainBase.Container.Sound
import ChainBase.Container.Recovery
import ChainBase.Container.Stamped
import ChainBase.Library.Versioned
import ChainBase.Container.UndoRefinement
import ChainBase.Container.FailedModify
import ChainBase.Container.RevisionRange
import ChainBase.Container.SessionHandles
import ChainBase.Library.Difference
import ChainBase.Container.LastSession
import ChainBase.Container.IdReuse
import ChainBase.Container.Ownership
import ChainBase.Container.StampInvariant
import ChainBase.Container.UndoLog
import ChainBase.Container.Copy
import ChainBase.Container.CopyEquivalence
import ChainBase.Journal.Recover
import ChainBase.Journal.Replay
import ChainBase.Journal.Journaled
import ChainBase.Journal.Rewriting
import ChainBase.Journal.Sessions
import ChainBase.Journal.FailedCalls
import ChainBase.Library.BigEndian
import ChainBase.Library.Crc32
import ChainBase.Journal.Archive
import ChainBase.Journal.Format
import ChainBase.Journal.Reading
import ChainBase.Journal.Scanning
import ChainBase.Journal.Visible
import ChainBase.Journal.Damage
import ChainBase.Journal.Writing
import ChainBase.Journal.Handles
import ChainBase.Journal.Torn
import ChainBase.Journal.PlainReplay
import ChainBase.Journal.Serialization
import ChainBase.Journal.ReadBack
import ChainBase.Database.Opening
import ChainBase.Database.Locking
import ChainBase.Database.Moving
import ChainBase.Database.Growing
import ChainBase.Database.Lookup
import ChainBase.Database.Recovering
import ChainBase.Library.CrcBurst
import ChainBase.Journal.Bursts
import ChainBase.Library.Durability
import ChainBase.Database.Lifetimes
import ChainBase.Database.Durability
import ChainBase.Library.Transaction
import ChainBase.Container.Transactions
import ChainBase.Database.DirtyFlag
import ChainBase.Container.History
import ChainBase.Journal.AnyFile
import ChainBase.Library.Interleaving
import ChainBase.Database.Containers
import ChainBase.Database.Separation
import ChainBase.Container.References
import ChainBase.Library.ListSegment
import ChainBase.Container.Links
import ChainBase.Journal.HalfWritten
import ChainBase.Container.NodeTraits
import ChainBase.Database.HeaderImage
import ChainBase.Database.ImageWorld
