import DistributedSystems.Lab.Lib.HeapList
import DistributedSystems.Lab.Lib.ReadLine
import DistributedSystems.Lab.Lib.ReceiveMessage
import DistributedSystems.Lab.ServerC.Isolation
import DistributedSystems.Lab.ServerC.Truncation
import DistributedSystems.Lab.ServerC.Authorisation
import DistributedSystems.Lab.ServerC.Undo
import DistributedSystems.Lab.ClientJava.Framing
import DistributedSystems.Lab.ClientJava.GetFile
import DistributedSystems.Lab.ClientJava.ListUsers
import DistributedSystems.Lab.ClientJava.Session
import DistributedSystems.Lab.ClientJava.Listening
import DistributedSystems.Lab.ClientJava.UserTable
import DistributedSystems.Lab.ClientJava.SharedFiles
import DistributedSystems.Lab.ServerC.PeerToPeerRpc
import DistributedSystems.Lab.ServerRpc.Agreement
import DistributedSystems.Lab.ServerRpc.PathBuffers
import DistributedSystems.Lab.ServerRpc.RecordBlocks
import DistributedSystems.Lab.ServerRpc.Listings
import DistributedSystems.Lab.ServerRpc.Records
import DistributedSystems.Lab.ServerRpc.Registered
import DistributedSystems.Lab.ServerC.Connections
import DistributedSystems.Lab.ServerC.Unregistration
import DistributedSystems.Lab.ServerC.AnnouncedCounts
import DistributedSystems.Lab.ServerC.Addresses
import DistributedSystems.Lab.ServerC.AcceptLoop
import DistributedSystems.Lab.ServerC.Registrations
import DistributedSystems.Lab.ServerC.DirectoryHandles
import DistributedSystems.Lab.ServerC.SocketClosing
import DistributedSystems.Lab.ServerC.StaleThreads
import DistributedSystems.Lab.ServerC.FailedCalls
import DistributedSystems.Lab.ServerC.NodeAllocation
import DistributedSystems.Lab.ServerC.Publications
import DistributedSystems.Lab.ServerC.RemovalOutcomes
import DistributedSystems.Lab.ServerC.SeparateUsers
import DistributedSystems.Lab.ServerC.StoreRegistry
import DistributedSystems.Lab.ClientJava.Arguments
import DistributedSystems.Lab.ClientJava.Downloads
import DistributedSystems.Exercise1.VectorMap
import DistributedSystems.Exercise1.Names
import DistributedSystems.Exercise1.ReceiveLoop
import DistributedSystems.Exercise1.OwnAnswers
import DistributedSystems.Exercise1.FailedInit
import DistributedSystems.Exercise1.GetCodes
import DistributedSystems.Exercise1.AnyMessage
import DistributedSystems.Exercise1.Linearized
import DistributedSystems.Exercise1.Deployment
import DistributedSystems.Lab.ServerC.RpcClients
import DistributedSystems.Lab.ServerC.RpcRegistry
import DistributedSystems.Exercise2.Echo
