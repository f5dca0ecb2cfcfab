import Finesse.Comm.Safety
import Finesse.Comm.Requests
import Finesse.Comm.Wakeups
import Finesse.Comm.Stopping
import Finesse.Comm.Slots
import Finesse.Comm.Arena
import Finesse.Comm.RequestNumbers
import Finesse.Comm.ReadyRequest
import Finesse.Api.Prefixes
import Finesse.Utils.TableThreads
import Finesse.Utils.TrieMap
import Finesse.Server.Worker
import Finesse.Server.PathWalk
import Finesse.Server.FinalParent
import Finesse.Server.MountPoint
import Finesse.Server.Unlinking
import Finesse.Server.Attributes
import Finesse.Server.Completion
import Finesse.Bitbucket.Tree
import Finesse.Bitbucket.Accounts
import Finesse.Bitbucket.Answers
import Finesse.Bitbucket.Replacement
import Finesse.Bitbucket.Collisions
import Finesse.Bitbucket.DirectoryMap
import Finesse.Bitbucket.BackgroundForget
import Finesse.Bitbucket.Listing
import Finesse.Bitbucket.Xattr
import Finesse.Bitbucket.InodeTable
import Finesse.Bitbucket.InodeSafety
import Finesse.Bitbucket.LockOrder
import Finesse.Bitbucket.Storage
import Finesse.Bitbucket.Copies
import Finesse.Bitbucket.MaxInodeCount
import Finesse.Api.FopenMode
import Finesse.Utils.TableUpkeep
import Finesse.Comm.ServerName
import Finesse.Utils.Formatters
import Finesse.Bitbucket.InodeNumbers
import Finesse.Utils.TableSize
import Finesse.Api.DescriptorTable
import Finesse.Utils.BucketHash
