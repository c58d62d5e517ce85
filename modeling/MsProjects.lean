import MsProjects.Os161.Properties.CopyError
import MsProjects.Os161.Properties.SbrkError
import MsProjects.Os161.Properties.Child
import MsProjects.Os161.Properties.Exec
import MsProjects.Os161.Properties.LoadError
import MsProjects.Os161.Properties.Execv
import MsProjects.Os161.Properties.Bootstrap
import MsProjects.Os161.Properties.File
import MsProjects.Os161.Properties.Seek
import MsProjects.Os161.Properties.ThreadFork
import MsProjects.Os161.Properties.Cv
import MsProjects.Os161.Properties.Implemented
import MsProjects.Os161.Properties.Whale
import MsProjects.Os161.Properties.ForkSem
import MsProjects.Os161.Properties.Orphan
import MsProjects.Os161.Properties.Obtained
import MsProjects.Os161.Properties.Malloc
import MsProjects.Os161.Properties.FlatFile
import MsProjects.Dht.Properties.Insert
import MsProjects.Dht.Properties.Join
import MsProjects.Dynamo.Properties.Agreement
import MsProjects.Dynamo.Properties.Delete
import MsProjects.Dynamo.Properties.QueryAll
import MsProjects.Dynamo.Properties.Recovery
import MsProjects.Dht.Properties.Store
import MsProjects.WikiIndexer.Properties.Index
import MsProjects.WikiIndexer.Properties.Runner
import MsProjects.WikiIndexer.Properties.Query
import MsProjects.WikiIndexer.Properties.Lookup
import MsProjects.GroupMessenger.Properties.Order
import MsProjects.Sql.Properties.Expression
import MsProjects.Sql.Properties.HashJoin
import MsProjects.Sql.Properties.Combine
import MsProjects.Sql.Properties.Group
import MsProjects.Sql.Properties.Unsupported
import MsProjects.Sql.Properties.ColNumber
